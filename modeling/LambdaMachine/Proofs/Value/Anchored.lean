import LambdaMachine.Prelude.Host
import LambdaMachine.Proofs.Prelude.Environment
import LambdaMachine.Proofs.Prelude.Host
import LambdaMachine.Proofs.Program.RoundTrip
import LambdaMachine.Proofs.Value.Layout

/-!
Nodes and the arenas they belong to. A node id says nothing without its arena, so every closure is
checked against the arena of its own code: the body lies in it, and in it every node comes after its
parts. Going down from such a node ends, and never leads out of the arena.
-/

namespace LambdaMachine

namespace Arena

inductive Visits (arena : Arena) (root : NodeId) : NodeId → Prop
  | root : Visits arena root root
  | body {id param body} (visited : Visits arena root id)
      (node : arena.node? id = some (.lambda param body)) : Visits arena root body
  | func {id func arg} (visited : Visits arena root id)
      (node : arena.node? id = some (.apply func arg)) : Visits arena root func
  | arg {id func arg} (visited : Visits arena root id)
      (node : arena.node? id = some (.apply func arg)) : Visits arena root arg

/-- Showing the tree under a node looks up nothing outside the arena, and ends. -/
structure Legible (arena : Arena) (root : NodeId) : Prop where
  inside : ∀ id, arena.Visits root id → id < arena.size
  ends : ∀ names, ∃ text, arena.text? names root = some text

structure Anchors (arena : Arena) (id : NodeId) : Prop where
  inside : id < arena.size
  tidy : arena.Tidy fun _ => True

section Anchors

variable {arena : Arena} {id : NodeId}

theorem Tidy.anchors {accepted : NameId → Prop} (tidy : arena.Tidy accepted)
    (inside : id < arena.size) : arena.Anchors id :=
  ⟨inside, tidy.mono fun _ _ => trivial⟩

theorem Anchors.body {param : NameId} {body : NodeId} (anchors : arena.Anchors id)
    (node : arena.node? id = some (.lambda param body)) : arena.Anchors body :=
  ⟨Nat.lt_trans (anchors.tidy id _ node).2 anchors.inside, anchors.tidy⟩

theorem Anchors.apply {func arg : NodeId} (anchors : arena.Anchors id)
    (node : arena.node? id = some (.apply func arg)) :
    arena.Anchors func ∧ arena.Anchors arg := by
  have fits := anchors.tidy id _ node
  exact ⟨⟨Nat.lt_trans fits.1 anchors.inside, anchors.tidy⟩,
    ⟨Nat.lt_trans fits.2 anchors.inside, anchors.tidy⟩⟩

theorem Anchors.exists_node (anchors : arena.Anchors id) : ∃ node, arena.node? id = some node :=
  lt_size_iff.mp anchors.inside

theorem Anchors.visited {root : NodeId} (anchors : arena.Anchors root)
    (visited : arena.Visits root id) : arena.Anchors id := by
  induction visited with
  | root => exact anchors
  | body _ node ih => exact ih.body node
  | func _ node ih => exact (ih.apply node).1
  | arg _ node ih => exact (ih.apply node).2

theorem Anchors.legible (anchors : arena.Anchors id) : arena.Legible id := by
  constructor
  · intro other visited
    exact (anchors.visited visited).inside
  · intro names
    obtain ⟨tree, denoted, _⟩ := anchors.tidy.exists_tree? anchors.inside
    exact ⟨(tree.map names.text).text, by rw [text?, denoted, Option.map_some]⟩

/-- Splitting goes down from the root, so what it finds is anchored too. -/
theorem Anchors.splitFrom? (anchors : arena.Anchors id) (layers : Nat) :
    ∃ bindings last, Program.splitFrom? arena layers id = some (bindings, last) ∧
      (∀ binding ∈ bindings, arena.Anchors binding.2) ∧ arena.Anchors last := by
  induction layers generalizing id with
  | zero => exact ⟨[], id, rfl, List.forall_mem_nil _, anchors⟩
  | succ layers ih =>
      have whole : ∃ (bindings : List (NameId × NodeId)) (last : NodeId),
          some ([], id) = some (bindings, last) ∧
          (∀ binding ∈ bindings, arena.Anchors binding.2) ∧ arena.Anchors last :=
        ⟨[], id, rfl, List.forall_mem_nil _, anchors⟩
      rw [Program.splitFrom?]
      obtain ⟨node, found⟩ := anchors.exists_node
      cases node with
      | var name => simpa only [found] using whole
      | lambda param body => simpa only [found] using whole
      | apply func arg =>
          obtain ⟨funcAnchors, argAnchors⟩ := anchors.apply found
          obtain ⟨funcNode, funcFound⟩ := funcAnchors.exists_node
          cases funcNode with
          | var name => simpa only [found, funcFound] using whole
          | apply left right => simpa only [found, funcFound] using whole
          | lambda param body =>
              obtain ⟨bindings, last, split, each, lastAnchors⟩ := ih (funcAnchors.body funcFound)
              refine ⟨(param, arg) :: bindings, last, ?_, ?_, lastAnchors⟩
              · simp only [found, funcFound, split]
                rfl
              · exact List.forall_mem_cons.mpr ⟨argAnchors, each⟩

end Anchors

end Arena

namespace Program

/-- Splitting the program and showing it, with its assignments or as one expression, look up nothing
outside the arena, and end. -/
structure Legible (program : Program) : Prop where
  root : program.arena.Legible program.root
  split : ∃ bindings body, program.split? = some (bindings, body) ∧
    (∀ binding ∈ bindings, program.arena.Legible binding.2) ∧ program.arena.Legible body
  text : ∀ names, ∃ text, program.text? names = some text
  rootText : ∀ names, ∃ text, program.rootText? names = some text

theorem exists_lines {arena : Arena} {bindings : List (NameId × NodeId)}
    (each : ∀ binding ∈ bindings, arena.Legible binding.2) (names : NameTable) :
    ∃ lines, bindings.mapM (line? arena names) = some lines := by
  induction bindings with
  | nil => exact ⟨[], List.mapM_nil⟩
  | cons binding rest ih =>
      obtain ⟨legible, eachRest⟩ := List.forall_mem_cons.mp each
      obtain ⟨side, sideText⟩ := legible.ends names
      obtain ⟨lines, linesText⟩ := ih eachRest
      refine ⟨(names.text binding.1 ++ " = " ++ side ++ "\n") :: lines, ?_⟩
      rw [List.mapM_cons, linesText, line?, sideText]
      rfl

theorem legible_of_anchors {program : Program} (anchors : program.arena.Anchors program.root) :
    program.Legible := by
  obtain ⟨bindings, body, split, each, bodyAnchors⟩ := anchors.splitFrom? program.assignments
  have eachLegible : ∀ binding ∈ bindings, program.arena.Legible binding.2 :=
    fun binding among => (each binding among).legible
  refine ⟨anchors.legible, ⟨bindings, body, split, eachLegible, bodyAnchors.legible⟩, fun names => ?_,
    fun names => anchors.legible.ends names⟩
  obtain ⟨lines, linesText⟩ := exists_lines eachLegible names
  obtain ⟨last, lastText⟩ := bodyAnchors.legible.ends names
  rw [text?, split?, split]
  simp only [Option.bind_eq_bind, Option.bind_some, linesText, lastText]
  exact ⟨_, rfl⟩

theorem anchors_parse {feed : Feed} {names later : NameTable} {program : Program}
    (parsed : parse feed names = (.ok program, later)) : program.arena.Anchors program.root := by
  obtain ⟨inside, tidy, _⟩ := tidy_parse parsed
  exact tidy.anchors inside

end Program

def Closure.Anchored (closure : Closure) : Prop :=
  closure.code.arena.Anchors closure.body

def Value.Anchored (value : Value) : Prop :=
  value.Throughout Closure.Anchored fun _ => True

def Env.Anchored (env : Env) : Prop :=
  env.Throughout Closure.Anchored fun _ => True

theorem Env.anchored_empty : Env.empty.Anchored :=
  Env.throughout_empty _ _

theorem Env.Anchored.extend {env : Env} {value : Value} (anchored : env.Anchored)
    (valueAnchored : value.Anchored) (ident : Ident) (name : NameId) :
    (env.extend ident name value).Anchored :=
  Env.Throughout.extend anchored valueAnchored ident name

theorem Env.Anchored.of_lookup {env : Env} {name : NameId} {value : Value}
    (anchored : env.Anchored) (found : env.lookup name = some value) : value.Anchored :=
  Env.Throughout.of_lookup anchored found

theorem Value.anchored_closure {closure : Closure} :
    (Value.closure closure).Anchored ↔ closure.Anchored ∧ closure.env.Anchored :=
  Value.throughout_closure

theorem Value.anchored_builtin {function : Builtin} :
    (Value.builtin function).Anchored ↔ function.kept.Anchored :=
  Value.throughout_builtin.trans (and_iff_right trivial)

theorem Value.anchored_datum (ident : Ident) (data : Datum) : (Value.datum ident data).Anchored :=
  Value.throughout_datum _ _ ident data

theorem Closure.Displays.anchored {closure : Closure} {names : NameTable} {param : String}
    {body : Tree String} (displays : closure.Displays names param body)
    (envAnchored : closure.env.Anchored) : (Value.closure closure).Anchored :=
  Value.anchored_closure.mpr ⟨displays.tidy.anchors displays.spells.lt_size, envAnchored⟩

namespace Church

theorem anchored_truth (value : Bool) (mint : Mint) : (truth value mint).1.Anchored := by
  obtain ⟨closure, same, held, displays⟩ := truth_displays value mint
  rw [same]
  exact displays.anchored (held ▸ Env.anchored_empty)

theorem anchored_numeral (count : Nat) (mint : Mint) : (numeral count mint).1.Anchored := by
  obtain ⟨closure, same, held, displays⟩ := numeral_displays count mint
  rw [same]
  exact displays.anchored (held ▸ Env.anchored_empty)

theorem anchored_identity (mint : Mint) : (Value.closure (identity mint).1).Anchored := by
  obtain ⟨held, displays⟩ := identity_displays mint
  exact displays.anchored (held ▸ Env.anchored_empty)

theorem anchored_pair {first second : Value} (firstAnchored : first.Anchored)
    (secondAnchored : second.Anchored) (mint : Mint) : (pair first second mint).1.Anchored := by
  obtain ⟨closure, firstName, secondName, same, _, _, held, displays⟩ :=
    pair_displays first second mint
  rw [same]
  refine displays.anchored ?_
  rw [held]
  exact (Env.anchored_empty.extend firstAnchored _ _).extend secondAnchored _ _

end Church

namespace Prelude

theorem anchored_environment (mint : Mint) {extra : List (String × Value)}
    (each : ∀ binding ∈ extra, binding.2.Anchored) : (environment extra mint).1.Anchored := by
  obtain ⟨names, ident, printName, readName, printByte, readByte, _, base, same, _⟩ :=
    exists_base mint
  have printAnchored := base.prints.anchored (base.printHolds _ _ fun _ _ => trivial)
  have readAnchored := base.reads.anchored (base.readHolds _ _ fun _ _ => trivial)
  have start := (Env.anchored_empty.extend printAnchored ident printName).extend readAnchored
    (ident + 1) readName
  rw [same]
  exact (@throughout_extendAll _ _ ⟨names, ident + 2⟩ _ extra start each).2

end Prelude

namespace Host

variable {World : Type}

def KeepsAnchored (host : Host World) (world : World) : Prop :=
  ∀ value ∈ host.kept world, value.Anchored

/-- The host hands out and keeps anchored values, if it is called with such values. -/
structure Anchored (host : Host World) : Prop where
  answers : ∀ function arg mint world result, (Value.builtin function).Anchored → arg.Anchored →
    host.KeepsAnchored world → (host.apply function arg mint world).result = .ok result →
      result.value.Anchored
  keeps : ∀ function arg mint world, (Value.builtin function).Anchored → arg.Anchored →
    host.KeepsAnchored world → host.KeepsAnchored (host.apply function arg mint world).world

end Host

namespace Surroundings

theorem anchored_readPair (byte : Option UInt8) (mint : Mint) :
    (readPair byte mint).1.Anchored := by
  rw [readPair_eq]
  exact Church.anchored_pair (Church.anchored_truth _ _) (Church.anchored_numeral _ _) _

theorem anchored_answer {function : Builtin} {arg : Value} {mint : Mint} {world : Surroundings}
    {result : Evaluated} (functionAnchored : (Value.builtin function).Anchored)
    (argAnchored : arg.Anchored)
    (answered : (host.apply function arg mint world).result = .ok result) :
    result.value.Anchored := by
  cases operation : function.operation with
  | print =>
      simp only [host, operation] at answered
      exact value_eq_of_print answered ▸ argAnchored
  | next =>
      simp only [host, operation, next] at answered
      split at answered
      · cases answered
      · cases answered
        exact Value.anchored_datum _ _
  | read =>
      simp only [host, operation, read] at answered
      split at answered
      · cases answered
      · cases answered
        exact anchored_readPair _ _
  | echo cacheable =>
      simp only [host, operation] at answered
      cases answered
      exact argAnchored
  | successor cacheable =>
      simp only [host, operation] at answered
      split at answered
      · cases answered
      · cases answered
        exact Value.anchored_datum _ _
  | refuse text =>
      simp only [host, operation] at answered
      cases answered
  | constant cacheable =>
      simp only [host, operation] at answered
      cases answered
      cases kept : function.kept with
      | empty => exact argAnchored
      | bind ident name value outer =>
          rw [Value.anchored_builtin, kept, Env.Anchored, Env.Throughout] at functionAnchored
          exact functionAnchored.1

theorem anchored_host : host.Anchored where
  answers _ _ _ _ _ functionAnchored argAnchored _ answered :=
    anchored_answer functionAnchored argAnchored answered
  keeps _ _ _ _ _ _ _ := List.forall_mem_nil _

end Surroundings

end LambdaMachine
