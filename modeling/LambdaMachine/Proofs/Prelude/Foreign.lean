import LambdaMachine.Proofs.Prelude.Blindness
import LambdaMachine.Proofs.Prelude.Scope
import LambdaMachine.Proofs.Value.Anchored

/-!
Functions that a host adds to those of the prelude. They have a world of their own, in which they may
keep values, and may answer with anything that they are given, have kept or make.
-/

namespace LambdaMachine

variable {World : Type}

namespace Surroundings

def hostWith (others : Host World) : Host (Surroundings × World) where
  apply function arg mint world :=
    match function.operation with
    | .print | .next | .read =>
        let reply := host.apply function arg mint world.1
        ⟨reply.result, reply.mint, reply.world, world.2⟩
    | _ =>
        let reply := others.apply function arg mint world.2
        ⟨reply.result, reply.mint, world.1, reply.world⟩
  kept world := others.kept world.2

variable {others : Host World}

theorem apply_hostWith (operation : Operation) :
    (∀ (function : Builtin) (arg : Value) (mint : Mint) (world : Surroundings × World),
      function.operation = operation →
        let reply := host.apply function arg mint world.1
        (hostWith others).apply function arg mint world =
          ⟨reply.result, reply.mint, reply.world, world.2⟩) ∨
    ∀ (function : Builtin) (arg : Value) (mint : Mint) (world : Surroundings × World),
      function.operation = operation →
        let reply := others.apply function arg mint world.2
        (hostWith others).apply function arg mint world =
          ⟨reply.result, reply.mint, world.1, reply.world⟩ := by
  cases operation with
  | print | next | read =>
      refine .inl fun function arg mint world isNative => ?_
      simp only [hostWith, isNative]
  | echo | successor | refuse | constant =>
      refine .inr fun function arg mint world isForeign => ?_
      simp only [hostWith, isForeign]

/-- Functions that are blind to identities stay so beside those of the prelude. -/
theorem blind_hostWith {alike : Heap → (Ident → Ident) → World → World → Prop}
    (blind : others.Blind alike) :
    (hostWith others).Blind fun heap label world image =>
      world.1 = image.1 ∧ alike heap label world.2 image.2 where
  keeps worlds := blind.keeps worlds.2
  kept worlds := blind.kept worlds.2
  grows grown worlds := ⟨worlds.1, blind.grows grown worlds.2⟩
  agrees same worlds := ⟨worlds.1, blind.agrees same worlds.2⟩
  within heap function arg mint world next functionInside argInside keeps := by
    rcases apply_hostWith function.operation with native | foreign
    · obtain ⟨later, grows, laterNext, inside⟩ :=
        host_answers next functionInside argInside world.1
      rw [native function arg mint world rfl]
      exact ⟨later, grows, laterNext, inside, Host.KeepsIn.mono keeps grows⟩
    · rw [foreign function arg mint world rfl]
      exact blind.within heap function arg mint world.2 next functionInside argInside keeps
  relabel := by
    rintro heap later label function arg mint image world imageWorld next relabels names
      functionInside argInside ⟨same, worlds⟩ grows laterNext keeps
    have operation : (function.relabel label).operation = function.operation := by
      rw [function.relabel_eq]
    rcases apply_hostWith function.operation with native | foreign
    · rw [native function arg mint world rfl,
        native (function.relabel label) (arg.relabel label) image imageWorld operation]
      have mirrors := host_mirrors ⟨relabels, names⟩ function arg world.1
      rw [same] at mirrors ⊢
      exact ⟨mirrors.result, mirrors.names, mirrors.next, mirrors.worlds,
        blind.grows grows worlds⟩
    · rw [foreign function arg mint world rfl] at laterNext keeps ⊢
      rw [foreign (function.relabel label) (arg.relabel label) image imageWorld operation]
      have mirrors := blind.relabel heap later label function arg mint image world.2 imageWorld.2
        next relabels names functionInside argInside worlds grows laterNext keeps
      exact ⟨mirrors.result, mirrors.names, mirrors.next, same, mirrors.worlds⟩

/-- Functions that hand out and keep anchored values do so beside those of the prelude. -/
theorem anchored_hostWith (anchored : others.Anchored) : (hostWith others).Anchored where
  answers function arg mint world result functionAnchored argAnchored keeps answered := by
    rcases apply_hostWith function.operation with native | foreign
    · rw [native function arg mint world rfl] at answered
      exact anchored_answer functionAnchored argAnchored answered
    · rw [foreign function arg mint world rfl] at answered
      exact anchored.answers function arg mint world.2 result functionAnchored argAnchored keeps
        answered
  keeps function arg mint world functionAnchored argAnchored keeps := by
    rcases apply_hostWith function.operation with native | foreign
    · rw [native function arg mint world rfl]
      exact keeps
    · rw [foreign function arg mint world rfl]
      exact anchored.keeps function arg mint world.2 functionAnchored argAnchored keeps

theorem lists_hostWith (lists : others.Lists) : (hostWith others).Lists where
  interns function arg mint world := by
    rcases apply_hostWith function.operation with native | foreign
    · rw [native function arg mint world rfl]
      exact interns_apply function arg mint world.1
    · rw [foreign function arg mint world rfl]
      exact lists.interns function arg mint world.2
  lists {catalog function arg mint world} bounded listed argListed keeps := by
    rcases apply_hostWith function.operation with native | foreign
    · obtain ⟨later, grows, answered⟩ := listed_answer bounded listed argListed world.1
      rw [native function arg mint world rfl]
      exact ⟨later, grows, Host.KeepsListed.grow keeps grows, answered⟩
    · rw [foreign function arg mint world rfl]
      exact lists.lists bounded listed argListed keeps

end Surroundings

namespace Keeper

/-- A function that answers a count with a new numeral. Any other argument is kept, and the answer is
what was kept before. -/
def host : Host (List Value) where
  apply _ arg mint kept :=
    match arg.count? with
    | some number =>
        let (value, mint) := Church.numeral number.toNat mint
        ⟨.ok ⟨value, true⟩, mint, kept⟩
    | none => ⟨.ok ⟨kept.headD arg, false⟩, mint, arg :: kept⟩
  kept := id

def Alike (heap : Heap) (label : Ident → Ident) (kept image : List Value) : Prop :=
  host.KeepsIn heap kept ∧ image = kept.map (Value.relabel label)

variable {heap : Heap} {kept : List Value} {arg : Value}

theorem keepsIn_cons (keeps : host.KeepsIn heap kept) (inside : arg.In heap) :
    host.KeepsIn heap (arg :: kept) :=
  List.forall_mem_cons.mpr ⟨inside, keeps⟩

/-- What holds of the argument and of every kept value holds of the latest one. -/
theorem headD_of_forall {holds : Value → Prop} (each : ∀ value ∈ kept, holds value)
    (held : holds arg) : holds (kept.headD arg) := by
  cases kept with
  | nil => exact held
  | cons value rest => exact each value List.mem_cons_self

theorem blind_host : host.Blind Alike where
  keeps worlds := worlds.1
  kept worlds := worlds.2
  grows grown worlds := ⟨worlds.1.mono grown, worlds.2⟩
  agrees := by
    rintro heap label other world _ same ⟨keeps, rfl⟩
    exact ⟨keeps, List.map_congr_left fun value among =>
      Value.Within.relabel_congr same (keeps value among)⟩
  within heap function arg mint kept next _ argInside keeps := by
    simp only [host]
    cases counted : arg.count? with
    | some number =>
        obtain ⟨later, grows, laterNext, inside⟩ := Church.makes_numeral next number.toNat
        refine ⟨later, grows, laterNext, ?_, keeps.mono grows⟩
        rintro _ ⟨⟩
        exact inside
    | none =>
        refine ⟨heap, .refl heap, next, ?_, keepsIn_cons keeps argInside⟩
        rintro _ ⟨⟩
        exact headD_of_forall keeps argInside
  relabel := by
    rintro heap later label function arg mint image kept _ next relabels names _ _ ⟨_, rfl⟩ _ _
    have mirrors : mint.Mirrors label image := ⟨relabels, names⟩
    simp only [host, Surroundings.count?_relabel]
    cases arg.count? with
    | some number =>
        intro keeps
        obtain ⟨same, after⟩ := Church.numeral_mirrors mirrors number.toNat
        exact ⟨congrArg (fun value => Except.ok (Evaluated.mk value true)) same, after.names,
          after.relabels.label_next.symm, keeps, rfl⟩
    | none =>
        intro keeps
        refine ⟨?_, names, relabels.label_next.symm, keeps, rfl⟩
        cases kept <;> rfl

theorem anchored_host : host.Anchored where
  answers function arg mint kept result _ argAnchored keeps answered := by
    simp only [host] at answered
    split at answered
    · cases answered
      exact Church.anchored_numeral _ _
    · cases answered
      exact headD_of_forall keeps argAnchored
  keeps function arg mint kept _ argAnchored keeps := by
    simp only [host]
    split
    · exact keeps
    · exact List.forall_mem_cons.mpr ⟨argAnchored, keeps⟩

theorem lists_host : host.Lists where
  interns function arg mint kept := by
    simp only [host]
    split
    · rename_i number _
      exact Church.numeral_interns number.toNat mint
    · exact .refl
  lists {catalog function arg mint kept} bounded _ argListed keeps := by
    simp only [host]
    split
    · rename_i number _
      obtain ⟨later, grows, listed⟩ := Church.forms_numeral (fun _ => True) bounded number.toNat
      refine ⟨later, grows, Host.KeepsListed.grow keeps grows, ?_⟩
      rintro _ ⟨⟩
      exact listed
    · refine ⟨catalog, .refl bounded, List.forall_mem_cons.mpr ⟨argListed, keeps⟩, ?_⟩
      rintro _ ⟨⟩
      exact headD_of_forall keeps argListed

end Keeper

end LambdaMachine
