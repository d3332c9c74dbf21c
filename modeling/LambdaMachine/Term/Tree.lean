import LambdaMachine.Source.Rune

/-!
Expressions as trees, over any kind of names, and their text. An abstraction reaches as far to the
right as it can, so it is wrapped where it stands in function position.
-/

namespace LambdaMachine

inductive Tree (ν : Type) where
  | var (name : ν)
  | lambda (param : ν) (body : Tree ν)
  | apply (func arg : Tree ν)
  deriving DecidableEq

namespace Tree

variable {ν μ : Type}

def map (rename : ν → μ) : Tree ν → Tree μ
  | .var name => .var (rename name)
  | .lambda param body => .lambda (rename param) (body.map rename)
  | .apply func arg => .apply (func.map rename) (arg.map rename)

def isLambda : Tree ν → Bool
  | .lambda _ _ => true
  | _ => false

def write : Tree String → String → String
  | .var name, out => out ++ name
  | .lambda param body, out => body.write (out ++ String.singleton Rune.lambda ++ param ++ ".")
  | .apply func arg, out =>
      if func.isLambda then arg.write (func.write (out ++ "((") ++ ") ") ++ ")"
      else arg.write (func.write (out ++ "(") ++ " ") ++ ")"

def text (tree : Tree String) : String :=
  tree.write ""

theorem write_eq_append (tree : Tree String) (out : String) :
    tree.write out = out ++ tree.text := by
  suffices aim : ∀ out, tree.write out = out ++ tree.write "" from aim out
  induction tree with
  | var name => intro out; simp only [write, String.empty_append]
  | lambda param body ih =>
      intro out
      rw [write, write, ih, ih ("" ++ _ ++ _ ++ _)]
      simp only [String.append_assoc, String.empty_append]
  | apply func arg funcIh argIh =>
      intro out
      rw [write, write]
      split
      · rw [argIh, funcIh, argIh (func.write ("" ++ "((") ++ ") "), funcIh ("" ++ "((")]
        simp only [String.append_assoc, String.empty_append]
      · rw [argIh, funcIh, argIh (func.write ("" ++ "(") ++ " "), funcIh ("" ++ "(")]
        simp only [String.append_assoc, String.empty_append]

theorem text_lambda (param : String) (body : Tree String) :
    (Tree.lambda param body).text = String.singleton Rune.lambda ++ param ++ "." ++ body.text := by
  rw [text, write, write_eq_append, String.empty_append]

theorem text_apply (func arg : Tree String) :
    (Tree.apply func arg).text =
      if func.isLambda then "((" ++ func.text ++ ") " ++ arg.text ++ ")"
      else "(" ++ func.text ++ " " ++ arg.text ++ ")" := by
  rw [text, write]
  split <;> rw [write_eq_append, write_eq_append, String.empty_append]

end Tree

end LambdaMachine
