import LambdaMachine.Term.Tree
import Mathlib.Logic.Relation

/-!
Call by value on trees: substitution, the reduction of one redex from the left, and the relation of
a tree and its value. Only closed trees are ever substituted, so no name is captured.
-/

namespace LambdaMachine.Tree

variable {ν : Type} [DecidableEq ν]

def Occurs (name : ν) : Tree ν → Prop
  | .var other => other = name
  | .lambda param body => param ≠ name ∧ body.Occurs name
  | .apply func arg => func.Occurs name ∨ arg.Occurs name

def Closed (tree : Tree ν) : Prop :=
  ∀ name, ¬tree.Occurs name

abbrev Substitution (ν : Type) := ν → Option (Tree ν)

namespace Substitution

def without (sub : Substitution ν) (param : ν) : Substitution ν := fun name =>
  if name = param then none else sub name

def assign (sub : Substitution ν) (param : ν) (value : Tree ν) : Substitution ν := fun name =>
  if name = param then some value else sub name

def nothing : Substitution ν := fun _ => none

end Substitution

open Substitution

def substitute (sub : Substitution ν) : Tree ν → Tree ν
  | .var name => (sub name).getD (.var name)
  | .lambda param body => .lambda param (body.substitute (sub.without param))
  | .apply func arg => .apply (func.substitute sub) (arg.substitute sub)

def instantiate (body : Tree ν) (param : ν) (value : Tree ν) : Tree ν :=
  body.substitute (nothing.assign param value)

theorem substitute_congr {tree : Tree ν} {left right : Substitution ν}
    (agree : ∀ name, tree.Occurs name → left name = right name) :
    tree.substitute left = tree.substitute right := by
  induction tree generalizing left right with
  | var name => rw [substitute, substitute, agree name rfl]
  | lambda param body ih =>
      rw [substitute, substitute]
      congr 1
      apply ih
      intro name occurs
      by_cases same : name = param
      · rw [without, without, if_pos same, if_pos same]
      · rw [without, without, if_neg same, if_neg same]
        exact agree name ⟨Ne.symm same, occurs⟩
  | apply func arg funcIh argIh =>
      rw [substitute, substitute, funcIh fun name occurs => agree name (Or.inl occurs),
        argIh fun name occurs => agree name (Or.inr occurs)]

theorem without_nothing (param : ν) : (nothing : Substitution ν).without param = nothing := by
  funext name
  rw [without]
  split <;> rfl

theorem substitute_nothing (tree : Tree ν) : tree.substitute nothing = tree := by
  induction tree with
  | var name => rfl
  | lambda param body ih => rw [substitute, without_nothing, ih]
  | apply func arg funcIh argIh => rw [substitute, funcIh, argIh]

theorem Closed.substitute_eq {tree : Tree ν} (closed : tree.Closed) (sub : Substitution ν) :
    tree.substitute sub = tree := by
  calc tree.substitute sub = tree.substitute nothing :=
        substitute_congr fun name occurs => absurd occurs (closed name)
    _ = tree := substitute_nothing tree

theorem occurs_substitute {tree : Tree ν} {sub : Substitution ν} {name : ν}
    (closed : ∀ other value, tree.Occurs other → sub other = some value → value.Closed)
    (occurs : (tree.substitute sub).Occurs name) : tree.Occurs name ∧ sub name = none := by
  induction tree generalizing sub with
  | var other =>
      rw [substitute] at occurs
      cases replaced : sub other with
      | none =>
          rw [replaced] at occurs
          have same : other = name := occurs
          subst same
          exact ⟨rfl, replaced⟩
      | some value =>
          rw [replaced] at occurs
          exact absurd occurs (closed other value rfl replaced name)
  | lambda param body ih =>
      obtain ⟨different, occurs⟩ := occurs
      have inner := ih (fun other value within replaced => by
        rw [without] at replaced
        split at replaced
        · cases replaced
        · rename_i distinct
          exact closed other value ⟨Ne.symm distinct, within⟩ replaced) occurs
      rw [without, if_neg (Ne.symm different)] at inner
      exact ⟨⟨different, inner.1⟩, inner.2⟩
  | apply func arg funcIh argIh =>
      rcases occurs with occurs | occurs
      · have inner := funcIh (fun other value within => closed other value (Or.inl within)) occurs
        exact ⟨Or.inl inner.1, inner.2⟩
      · have inner := argIh (fun other value within => closed other value (Or.inr within)) occurs
        exact ⟨Or.inr inner.1, inner.2⟩

theorem without_without_comm (sub : Substitution ν) (first second : ν) :
    (sub.without first).without second = (sub.without second).without first := by
  funext name
  simp only [without]
  split <;> split <;> rfl

theorem without_without (sub : Substitution ν) (param : ν) :
    (sub.without param).without param = sub.without param := by
  funext name
  simp only [without]
  split <;> rfl

theorem without_assign_same (sub : Substitution ν) (param : ν) (value : Tree ν) :
    (sub.assign param value).without param = sub.without param := by
  funext name
  simp only [without, assign]
  split <;> rfl

theorem without_assign_comm (sub : Substitution ν) {param other : ν} (different : other ≠ param)
    (value : Tree ν) :
    (sub.assign param value).without other = (sub.without other).assign param value := by
  funext name
  simp only [without, assign]
  split
  · rename_i same
    subst same
    rw [if_neg different]
  · rfl

/-- Substituting under a binder and then for its parameter is one substitution. -/
theorem instantiate_substitute {param : ν} {body : Tree ν} {sub : Substitution ν}
    (closed : ∀ name value, (Tree.lambda param body).Occurs name → sub name = some value →
      value.Closed) (value : Tree ν) :
    (body.substitute (sub.without param)).instantiate param value =
      body.substitute (sub.assign param value) := by
  induction body generalizing sub with
  | var name =>
      by_cases same : name = param
      · simp only [instantiate, substitute, without, assign, if_pos same, Option.getD]
      · cases replaced : sub name with
        | none =>
            simp only [instantiate, substitute, without, assign, if_neg same, replaced,
              Option.getD, nothing]
        | some tree =>
            simp only [instantiate, substitute, without, assign, if_neg same, replaced,
              Option.getD]
            exact (closed name tree ⟨Ne.symm same, rfl⟩ replaced).substitute_eq _
  | lambda other body ih =>
      have inner : ∀ name value, (Tree.lambda param body).Occurs name →
          sub.without other name = some value → value.Closed := by
        intro name value occurs replaced
        rw [without] at replaced
        split at replaced
        · cases replaced
        · rename_i distinct
          exact closed name value ⟨occurs.1, Ne.symm distinct, occurs.2⟩ replaced
      simp only [instantiate, substitute, Tree.lambda.injEq, true_and] at ih ⊢
      by_cases same : other = param
      · subst same
        rw [without_without, without_assign_same, without_assign_same, without_nothing,
          substitute_nothing]
      · rw [without_assign_comm _ same, without_assign_comm _ same, without_nothing,
          without_without_comm]
        exact ih inner
  | apply func arg funcIh argIh =>
      simp only [instantiate, substitute, Tree.apply.injEq] at funcIh argIh ⊢
      exact ⟨funcIh fun name value occurs => closed name value ⟨occurs.1, Or.inl occurs.2⟩,
        argIh fun name value occurs => closed name value ⟨occurs.1, Or.inr occurs.2⟩⟩

/-- One reduction: of the function, else of the argument, else of the redex they form. -/
inductive Step : Tree ν → Tree ν → Prop
  | func {func func' arg} : Step func func' → Step (.apply func arg) (.apply func' arg)
  | arg {param body arg arg'} : Step arg arg' →
      Step (.apply (.lambda param body) arg) (.apply (.lambda param body) arg')
  | beta {param body argParam argBody} :
      Step (.apply (.lambda param body) (.lambda argParam argBody))
        (body.instantiate param (.lambda argParam argBody))

abbrev Reduces : Tree ν → Tree ν → Prop :=
  Relation.ReflTransGen Step

inductive Computes : Tree ν → Tree ν → Prop
  | lambda (param body) : Computes (.lambda param body) (.lambda param body)
  | apply {func param body arg passed value} : Computes func (.lambda param body) →
      Computes arg passed → Computes (body.instantiate param passed) value →
      Computes (.apply func arg) value

theorem Computes.isLambda {tree value : Tree ν} (computes : Computes tree value) :
    value.isLambda = true := by
  induction computes with
  | lambda => rfl
  | apply _ _ _ _ _ ih => exact ih

theorem Computes.of_isLambda {value : Tree ν} (abstraction : value.isLambda = true) :
    Computes value value := by
  cases value with
  | lambda param body => exact .lambda param body
  | var name => cases abstraction
  | apply func arg => cases abstraction

theorem Computes.deterministic {tree left right : Tree ν} (toLeft : Computes tree left)
    (toRight : Computes tree right) : left = right := by
  induction toLeft generalizing right with
  | lambda param body => cases toRight; rfl
  | apply _ _ _ funcIh argIh bodyIh =>
      cases toRight with
      | apply func arg body =>
          cases funcIh func
          cases argIh arg
          exact bodyIh body

/-- An application has the value that the values of its parts have when one is applied to the
other. -/
theorem Computes.apply_values {func arg funcValue argValue value : Tree ν}
    (funcComputes : Computes func funcValue) (argComputes : Computes arg argValue)
    (application : Computes (.apply funcValue argValue) value) :
    Computes (.apply func arg) value := by
  cases application with
  | apply funcAgain argAgain body =>
      cases funcAgain.deterministic (.of_isLambda funcComputes.isLambda)
      cases argAgain.deterministic (.of_isLambda argComputes.isLambda)
      exact .apply funcComputes argComputes body

theorem Reduces.func {func func' : Tree ν} (arg : Tree ν) (reduces : Reduces func func') :
    Reduces (.apply func arg) (.apply func' arg) :=
  reduces.lift (Tree.apply · arg) fun _ _ => .func

theorem Reduces.arg {arg arg' : Tree ν} (param : ν) (body : Tree ν) (reduces : Reduces arg arg') :
    Reduces (.apply (.lambda param body) arg) (.apply (.lambda param body) arg') :=
  reduces.lift (Tree.apply (.lambda param body)) fun _ _ => .arg

theorem Computes.reduces {tree value : Tree ν} (computes : Computes tree value) :
    Reduces tree value := by
  induction computes with
  | lambda => exact .refl
  | @apply func param body arg passed value _ argComputes _ funcIh argIh bodyIh =>
      have redex : Step (.apply (.lambda param body) passed) (body.instantiate param passed) := by
        cases passed with
        | lambda argParam argBody => exact .beta
        | var name => cases argComputes.isLambda
        | apply func arg => cases argComputes.isLambda
      exact (funcIh.func arg).trans ((argIh.arg param body).trans (bodyIh.head redex))

theorem computes_beta_iff {param : ν} {body arg value : Tree ν} (argLambda : arg.isLambda = true) :
    Computes (.apply (.lambda param body) arg) value ↔
      Computes (body.instantiate param arg) value := by
  constructor
  · intro computes
    cases computes with
    | apply funcAgain argAgain bodyComputes =>
        cases funcAgain
        cases argAgain.deterministic (.of_isLambda argLambda)
        exact bodyComputes
  · intro computes
    exact .apply (.lambda param body) (.of_isLambda argLambda) computes

/-- A reduction does not change the value. -/
theorem Step.computes {tree reduct value : Tree ν} (step : Step tree reduct)
    (computes : Computes reduct value) : Computes tree value := by
  induction step generalizing value with
  | func _ ih =>
      cases computes with
      | apply func arg body => exact .apply (ih func) arg body
  | arg _ ih =>
      cases computes with
      | apply func arg body => exact .apply func (ih arg) body
  | beta => exact .apply (.lambda _ _) (.lambda _ _) computes

theorem computes_iff_reduces {tree value : Tree ν} :
    Computes tree value ↔ Reduces tree value ∧ value.isLambda = true := by
  constructor
  · intro computes
    exact ⟨computes.reduces, computes.isLambda⟩
  · rintro ⟨reduces, abstraction⟩
    induction reduces using Relation.ReflTransGen.head_induction_on with
    | refl => exact .of_isLambda abstraction
    | head step _ ih => exact step.computes ih

end LambdaMachine.Tree
