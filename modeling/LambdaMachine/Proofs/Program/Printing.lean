import LambdaMachine.Program.Basic
import LambdaMachine.Proofs.Program.Reading
import LambdaMachine.Proofs.Term.Denotation

/-!
The text of a program, in terms of the tree of its root: the layers that are assignments are peeled
off the tree and written line by line, and what is left is written after them.
-/

namespace LambdaMachine

namespace Tree

variable {ν μ : Type}

def peel : Nat → Tree ν → List (ν × Tree ν) × Tree ν
  | layers + 1, .apply (.lambda param body) side =>
      ((param, side) :: (body.peel layers).1, (body.peel layers).2)
  | _, tree => ([], tree)

def wrap (body : Tree ν) : List (ν × Tree ν) → Tree ν
  | [] => body
  | (param, side) :: bindings => .apply (.lambda param (body.wrap bindings)) side

theorem wrap_append (body : Tree ν) (outer inner : List (ν × Tree ν)) :
    body.wrap (outer ++ inner) = (body.wrap inner).wrap outer := by
  induction outer with
  | nil => rfl
  | cons binding outer ih =>
      obtain ⟨param, side⟩ := binding
      rw [List.cons_append, wrap, wrap, ih]

theorem wrap_peel (layers : Nat) (tree : Tree ν) :
    (tree.peel layers).2.wrap (tree.peel layers).1 = tree := by
  fun_induction peel layers tree with
  | case1 layers param body side ih => rw [wrap, ih]
  | case2 layers tree _ => rfl

def renameBinding (rename : ν → μ) (binding : ν × Tree ν) : μ × Tree μ :=
  (rename binding.1, binding.2.map rename)

theorem peel_map (rename : ν → μ) (layers : Nat) (tree : Tree ν) :
    (tree.map rename).peel layers =
      ((tree.peel layers).1.map (renameBinding rename), (tree.peel layers).2.map rename) := by
  induction layers generalizing tree with
  | zero => rfl
  | succ layers ih =>
      cases tree with
      | var name => rfl
      | lambda param body => rfl
      | apply func arg =>
          cases func with
          | var name => rfl
          | apply inner last => rfl
          | lambda param body =>
              rw [map, map, peel, peel, ih]
              rfl

theorem named_peel {accepted : ν → Prop} {layers : Nat} {tree : Tree ν}
    (named : tree.Named accepted) :
    (∀ binding ∈ (tree.peel layers).1, accepted binding.1 ∧ binding.2.Named accepted) ∧
      (tree.peel layers).2.Named accepted := by
  fun_induction peel layers tree with
  | case1 layers param body side ih =>
      obtain ⟨bindings, last⟩ := ih named.1.2
      refine ⟨fun binding among => ?_, last⟩
      rcases List.mem_cons.mp among with rfl | inner
      · exact ⟨named.1.1, named.2⟩
      · exact bindings binding inner
  | case2 layers tree _ => exact ⟨fun _ among => (List.not_mem_nil among).elim, named⟩

theorem named_map {accepted : μ → Prop} {rename : ν → μ} {tree : Tree ν} :
    (tree.map rename).Named accepted ↔ tree.Named fun name => accepted (rename name) := by
  induction tree with
  | var name => exact Iff.rfl
  | lambda param body ih => exact and_congr Iff.rfl ih
  | apply func arg funcIh argIh => exact and_congr funcIh argIh

theorem Named.mono {accepted weaker : ν → Prop} (implies : ∀ name, accepted name → weaker name)
    {tree : Tree ν} (named : tree.Named accepted) : tree.Named weaker := by
  induction tree with
  | var name => exact implies name named
  | lambda param body ih => exact ⟨implies param named.1, ih named.2⟩
  | apply func arg funcIh argIh => exact ⟨funcIh named.1, argIh named.2⟩

end Tree

def lineChars (binding : String × Tree String) : List Char :=
  binding.1.toList ++ ' ' :: '=' :: ' ' :: binding.2.chars

def gapChars {α : Type} (bindings : List α) : List Char :=
  '\n' :: if bindings.isEmpty then ['\n'] else []

def programChars (body : Tree String) : List (String × Tree String) → List Char
  | [] => body.chars
  | binding :: bindings =>
      lineChars binding ++ (gapChars bindings ++ programChars body bindings)

theorem programChars_eq (body : Tree String) (bindings : List (String × Tree String)) :
    programChars body bindings =
      bindings.flatMap (fun binding => lineChars binding ++ ['\n']) ++
        (if bindings.isEmpty then [] else ['\n']) ++ body.chars := by
  induction bindings with
  | nil => rfl
  | cons binding bindings ih =>
      rw [programChars, ih, gapChars]
      cases bindings with
      | nil =>
          simp only [List.flatMap_cons, List.flatMap_nil, List.append_nil, List.append_assoc]
          rfl
      | cons next bindings =>
          simp only [List.flatMap_cons, List.isEmpty_cons, List.append_assoc, List.cons_append,
            List.nil_append]
          rfl

namespace Program

def namedTree? (program : Program) (names : NameTable) : Option (Tree String) :=
  (program.arena.tree? program.root).map fun tree => tree.map names.text

end Program

namespace Arena

def binding? (arena : Arena) (binding : NameId × NodeId) : Option (NameId × Tree NameId) :=
  (arena.tree? binding.2).map fun side => (binding.1, side)

/-- The assignments that split off a program are those that peel off its tree. -/
theorem splitFrom?_of_tree? {arena : Arena} {layers : Nat} {id : NodeId} {tree : Tree NameId}
    (denoted : arena.tree? id = some tree) :
    ∃ bindings last, Program.splitFrom? arena layers id = some (bindings, last) ∧
      bindings.mapM arena.binding? = some (tree.peel layers).1 ∧
      arena.tree? last = some (tree.peel layers).2 := by
  induction layers generalizing id tree with
  | zero => exact ⟨[], id, rfl, rfl, denoted⟩
  | succ layers ih =>
      obtain ⟨node, found⟩ := exists_node_of_tree? denoted
      cases node with
      | var name =>
          cases tree?_var found denoted
          exact ⟨[], id, by simp only [Program.splitFrom?, found], rfl, denoted⟩
      | lambda param body =>
          obtain ⟨bodyTree, _, rfl⟩ := tree?_lambda found denoted
          exact ⟨[], id, by simp only [Program.splitFrom?, found], rfl, denoted⟩
      | apply func arg =>
          obtain ⟨funcTree, argTree, funcDenoted, argDenoted, rfl⟩ := tree?_apply found denoted
          obtain ⟨funcNode, funcFound⟩ := exists_node_of_tree? funcDenoted
          cases funcNode with
          | var name =>
              cases tree?_var funcFound funcDenoted
              exact ⟨[], id, by simp only [Program.splitFrom?, found, funcFound], rfl, denoted⟩
          | apply inner last =>
              obtain ⟨_, _, _, _, rfl⟩ := tree?_apply funcFound funcDenoted
              exact ⟨[], id, by simp only [Program.splitFrom?, found, funcFound], rfl, denoted⟩
          | lambda param body =>
              obtain ⟨bodyTree, bodyDenoted, rfl⟩ := tree?_lambda funcFound funcDenoted
              obtain ⟨bindings, last, split, sides, lastDenoted⟩ := ih bodyDenoted
              refine ⟨_, last, Program.splitFrom?_assignment found funcFound split, ?_, lastDenoted⟩
              rw [List.mapM_cons, sides, binding?, argDenoted]
              rfl

end Arena

namespace Program

theorem mapM_line? {arena : Arena} {names : NameTable} {bindings : List (NameId × NodeId)}
    {trees : List (NameId × Tree NameId)} (sides : bindings.mapM arena.binding? = some trees) :
    ∃ lines, bindings.mapM (line? arena names) = some lines ∧
      lines.flatMap String.toList = (trees.map (Tree.renameBinding names.text)).flatMap
        (fun binding => lineChars binding ++ ['\n']) ∧
      bindings.length = trees.length := by
  induction bindings generalizing trees with
  | nil =>
      cases sides
      exact ⟨[], rfl, rfl, rfl⟩
  | cons binding bindings ih =>
      rw [List.mapM_cons] at sides
      obtain ⟨tree, first, rest⟩ := Option.bind_eq_some_iff.mp sides
      obtain ⟨others, restSides, same⟩ := Option.bind_eq_some_iff.mp rest
      cases same
      obtain ⟨side, denoted, rfl⟩ := Option.map_eq_some_iff.mp first
      obtain ⟨lines, restLines, chars, lengths⟩ := ih restSides
      let line := names.text binding.1 ++ " = " ++ (side.map names.text).text ++ "\n"
      have firstLine : line? arena names binding = some line := by
        simp only [line?, Arena.text?, denoted]
        rfl
      have lineEq : line.toList =
          lineChars (Tree.renameBinding names.text (binding.1, side)) ++ ['\n'] := by
        simp only [line, String.toList_append, lineChars, Tree.chars, Tree.renameBinding,
          List.append_assoc]
        rfl
      refine ⟨line :: lines, ?_, ?_, congrArg (· + 1) lengths⟩
      · rw [List.mapM_cons, firstLine, restLines]
        rfl
      · rw [List.map_cons, List.flatMap_cons, List.flatMap_cons, chars, lineEq]

theorem toList_gap {α β : Type} {bindings : List α} {trees : List β}
    (lengths : bindings.length = trees.length) :
    (if bindings.isEmpty then "" else "\n").toList =
      if trees.isEmpty then [] else ['\n'] := by
  cases bindings with
  | nil =>
      cases trees with
      | nil => rfl
      | cons tree trees => cases lengths
  | cons binding bindings =>
      cases trees with
      | nil => cases lengths
      | cons tree trees =>
          rw [List.isEmpty_cons, List.isEmpty_cons]
          decide

theorem rootText?_of_namedTree? {program : Program} {names : NameTable} {tree : Tree String}
    (shown : program.namedTree? names = some tree) :
    program.rootText? names = some tree.text := by
  obtain ⟨inner, denoted, rfl⟩ := Option.map_eq_some_iff.mp shown
  rw [rootText?, Arena.text?, denoted, Option.map_some]

/-- The text of a program is that of the assignments that peel off its tree and of what is left. -/
theorem text?_of_namedTree? {program : Program} {names : NameTable} {tree : Tree String}
    (shown : program.namedTree? names = some tree) :
    ∃ text bindings body, program.text? names = some text ∧
      program.split? = some (bindings, body) ∧
      bindings.length = (tree.peel program.assignments).1.length ∧
      text.toList =
        programChars (tree.peel program.assignments).2 (tree.peel program.assignments).1 := by
  obtain ⟨inner, denoted, rfl⟩ := Option.map_eq_some_iff.mp shown
  obtain ⟨bindings, body, split, sides, bodyDenoted⟩ :=
    @Arena.splitFrom?_of_tree? program.arena program.assignments program.root inner denoted
  obtain ⟨lines, linesFound, chars, lengths⟩ := @mapM_line? program.arena names bindings _ sides
  rw [Tree.peel_map]
  generalize inner.peel program.assignments = peeled at sides bodyDenoted chars lengths ⊢
  have splits : program.split? = some (bindings, body) := split
  have sameGap := @toList_gap _ _ bindings (peeled.1.map (Tree.renameBinding names.text))
    (by rw [lengths, List.length_map])
  refine ⟨String.join lines ++ (if bindings.isEmpty then "" else "\n") ++
    (peeled.2.map names.text).text, bindings, body, ?_, splits, ?_, ?_⟩
  · rw [text?, splits]
    simp only [Option.bind_eq_bind, Option.bind_some, linesFound, Arena.text?, bodyDenoted,
      Option.map_some]
    rfl
  · rw [lengths, List.length_map]
  · rw [programChars_eq, ← chars, ← sameGap, String.toList_append, String.toList_append,
      String.toList_join, Tree.chars]

end Program

end LambdaMachine
