import LambdaMachine.Prelude.Environment
import LambdaMachine.Proofs.Value.Known
import LambdaMachine.Proofs.Value.Layout

/-!
The environment programs start in is made of two new closures, whose host functions are those of the
prelude, and of what it is given besides.
-/

namespace LambdaMachine.Prelude

section Forms

variable {closures : Closure → Prop} {allowed : Builtin → Prop} {catalog : Catalog} {mint : Mint}
  {env : Env}

theorem throughout_printEnv (closures : Closure → Prop)
    (native : ∀ function : Builtin, function.operation.Native → allowed function) (mint : Mint) :
    (printEnv mint).1.Throughout closures allowed := by
  have empty := Env.throughout_empty closures allowed
  have datum := Value.throughout_datum closures allowed mint.nextIdent (.byte 0)
  have printer : (Value.builtin ⟨mint.nextIdent + 1, "print", .print, .empty⟩).Throughout
      closures allowed := Value.throughout_builtin.mpr ⟨native _ trivial, empty⟩
  have counter : (Value.builtin ⟨mint.nextIdent + 2, "next", .next, .empty⟩).Throughout
      closures allowed := Value.throughout_builtin.mpr ⟨native _ trivial, empty⟩
  exact ((empty.extend datum _ _).extend printer _ _).extend counter _ _

theorem throughout_readEnv (closures : Closure → Prop)
    (native : ∀ function : Builtin, function.operation.Native → allowed function) (mint : Mint) :
    (readEnv mint).1.Throughout closures allowed := by
  have empty := Env.throughout_empty closures allowed
  have reader : (Value.builtin ⟨mint.nextIdent, "read", .read, .empty⟩).Throughout
      closures allowed := Value.throughout_builtin.mpr ⟨native _ trivial, empty⟩
  exact empty.extend reader _ _

theorem forms_abstraction (bounded : catalog.Bounded mint.nextIdent)
    (all : env.Throughout catalog.Lists allowed) (param : String) (body : Tree String) :
    catalog.Forms allowed mint.nextIdent (.closure (mint.abstraction env param body).1)
      (mint.abstraction env param body).2.nextIdent :=
  @Mint.forms_closureOver catalog { mint with names := _ } env allowed bounded all _ _ _

theorem throughout_extendAll {extra : List (String × Value)}
    (envAll : env.Throughout closures allowed)
    (each : ∀ binding ∈ extra, binding.2.Throughout closures allowed) :
    mint.nextIdent ≤ (extendAll env extra mint).2.nextIdent ∧
      (extendAll env extra mint).1.Throughout closures allowed := by
  induction extra generalizing env mint with
  | nil => exact ⟨Nat.le_refl _, envAll⟩
  | cons binding rest ih =>
      have valueAll := each binding List.mem_cons_self
      have eachRest : ∀ binding ∈ rest, binding.2.Throughout closures allowed :=
        fun other among => each other (List.mem_cons_of_mem _ among)
      have extended := envAll.extend valueAll mint.nextIdent (mint.intern binding.1).1
      obtain ⟨le, all⟩ := @ih ((mint.intern binding.1).2.extend env (mint.intern binding.1).1
        binding.2).2 _ extended eachRest
      exact ⟨Nat.le_trans (Nat.le_succ _) le, all⟩

theorem forms_environment (bounded : catalog.Bounded mint.nextIdent)
    (native : ∀ function : Builtin, function.operation.Native → allowed function)
    {extra : List (String × Value)}
    (each : ∀ binding ∈ extra, binding.2.Throughout catalog.Lists allowed) :
    ∃ later, catalog.Grows mint.nextIdent later (environment extra mint).2.nextIdent ∧
      (environment extra mint).1.Throughout later.Lists allowed := by
  -- each part is named before it is used, so that no body is laid out on the way
  unfold environment
  have toPrintEnv : mint.nextIdent ≤ (printEnv mint).2.nextIdent := Nat.le_add_right _ 6
  have printEnvAll := fun closures => throughout_printEnv closures native mint
  generalize printEnv mint = made at toPrintEnv printEnvAll ⊢
  obtain ⟨printEnv, afterPrintEnv⟩ := made
  dsimp only at toPrintEnv printEnvAll ⊢
  have toReadEnv : afterPrintEnv.nextIdent ≤ (readEnv afterPrintEnv).2.nextIdent :=
    Nat.le_add_right _ 2
  have readEnvAll := fun closures => throughout_readEnv closures native afterPrintEnv
  generalize readEnv afterPrintEnv = made at toReadEnv readEnvAll ⊢
  obtain ⟨readEnv, afterReadEnv⟩ := made
  dsimp only at toReadEnv readEnvAll ⊢
  have toEnvs : catalog.Grows mint.nextIdent catalog (afterReadEnv.intern "PRINT_BYTE").2.nextIdent :=
    .skip bounded (Nat.le_trans toPrintEnv toReadEnv)
  have formsPrint := forms_abstraction toEnvs.after (printEnvAll _) "n" printBody
  generalize (afterReadEnv.intern "PRINT_BYTE").2.abstraction printEnv "n" printBody = made
    at formsPrint ⊢
  obtain ⟨printByte, afterPrint⟩ := made
  obtain ⟨first, toFirst, printAll⟩ := formsPrint
  dsimp only at toFirst printAll ⊢
  have boundedFirst : first.Bounded (afterPrint.intern "READ_BYTE").2.nextIdent := toFirst.after
  have formsRead := forms_abstraction boundedFirst (readEnvAll _) "x" readBody
  generalize (afterPrint.intern "READ_BYTE").2.abstraction readEnv "x" readBody = made
    at formsRead ⊢
  obtain ⟨readByte, afterRead⟩ := made
  obtain ⟨second, toSecond, readAll⟩ := formsRead
  dsimp only at toSecond readAll ⊢
  have grows := toEnvs.trans (toFirst.trans toSecond)
  have base := ((Env.throughout_empty second.Lists allowed).extend (toSecond.value printAll)
    afterRead.nextIdent (afterReadEnv.intern "PRINT_BYTE").1).extend readAll
    (afterRead.nextIdent + 1) (afterPrint.intern "READ_BYTE").1
  obtain ⟨le, all⟩ := @throughout_extendAll second.Lists allowed
    ⟨afterRead.names, afterRead.nextIdent + 2⟩ _ extra base
    fun binding among => grows.value (each binding among)
  exact ⟨second, grows.trans (.skip toSecond.after (Nat.le_trans (Nat.le_add_right _ 2) le)), all⟩

end Forms

section Base

theorem printBody_named : printBody.Named IsName := by
  decide

theorem readBody_named : readBody.Named IsName := by
  decide

theorem printEnv_binds (mint : Mint) :
    mint.names.Interns (printEnv mint).2.names ∧
      ∀ text ∈ ["null", "print", "next"], ∃ name value,
        (printEnv mint).2.names.numbers[text]? = some name ∧
          (printEnv mint).1.lookup name = some value := by
  have toNull : mint.names.Interns (mint.names.intern "null").2 := .intern .refl "null"
  have null := mint.names.numbers_intern "null"
  have print := (mint.names.intern "null").2.numbers_intern "print"
  have toPrint : (mint.names.intern "null").2.Interns
      ((mint.names.intern "null").2.intern "print").2 := .intern .refl "print"
  have next := ((mint.names.intern "null").2.intern "print").2.numbers_intern "next"
  have toNext : ((mint.names.intern "null").2.intern "print").2.Interns
      (((mint.names.intern "null").2.intern "print").2.intern "next").2 := .intern .refl "next"
  refine ⟨toNull.trans (toPrint.trans toNext), fun text among => ?_⟩
  simp only [List.mem_cons, List.not_mem_nil, or_false] at among
  rcases among with rfl | rfl | rfl
  · obtain ⟨value, bound⟩ := Env.exists_lookup_extend (.inr (Env.exists_lookup_extend (.inr
      (Env.exists_lookup_extend (.inl rfl)))))
    exact ⟨_, value, (toPrint.trans toNext).extends _ _ null, bound⟩
  · obtain ⟨value, bound⟩ := Env.exists_lookup_extend (.inr (Env.exists_lookup_extend (.inl rfl)))
    exact ⟨_, value, toNext.extends _ _ print, bound⟩
  · obtain ⟨value, bound⟩ := Env.exists_lookup_extend (.inl rfl)
    exact ⟨_, value, next, bound⟩

theorem readEnv_binds (mint : Mint) :
    mint.names.Interns (readEnv mint).2.names ∧
      ∃ name function, (readEnv mint).2.names.numbers["read"]? = some name ∧
        (readEnv mint).1.lookup name = some (.builtin function) ∧ function.operation = .read :=
  ⟨.intern .refl "read", _, _, mint.names.numbers_intern "read", if_pos rfl, rfl⟩

theorem printEnv_finds (mint : Mint) {later : NameTable}
    (grown : later.Extends (printEnv mint).2.names) (coherent : later.Coherent) :
    (∃ ident, (printEnv mint).1.Finds later "null" (.datum ident (.byte 0))) ∧
    (∃ function, (printEnv mint).1.Finds later "print" (.builtin function) ∧
      function.operation = .print) ∧
    ∃ function, (printEnv mint).1.Finds later "next" (.builtin function) ∧
      function.operation = .next := by
  have next := grown _ _ (((mint.names.intern "null").2.intern "print").2.numbers_intern "next")
  replace grown := grown.trans (NameTable.extends_intern _ "next")
  have print := grown _ _ ((mint.names.intern "null").2.numbers_intern "print")
  replace grown := grown.trans (NameTable.extends_intern _ "print")
  have null := grown _ _ (mint.names.numbers_intern "null")
  refine ⟨⟨mint.nextIdent, ?_⟩, ⟨⟨mint.nextIdent + 1, "print", .print, .empty⟩, ?_, rfl⟩,
    ⟨_, Env.finds_extend next _ _ _, rfl⟩⟩
  · exact ((Env.finds_extend null _ _ _).extend coherent (show "null" ≠ "print" by decide) print
      _ _).extend coherent (show "null" ≠ "next" by decide) next _ _
  · exact (Env.finds_extend print _ _ _).extend coherent (show "print" ≠ "next" by decide) next _ _

structure PrintsBytes (closure : Closure) (names : NameTable) : Prop where
  spells : closure.Spells names closure.env "n" printBody
  null : ∃ ident, closure.env.Finds names "null" (.datum ident (.byte 0))
  print : ∃ function, closure.env.Finds names "print" (.builtin function) ∧
    function.operation = .print
  next : ∃ function, closure.env.Finds names "next" (.builtin function) ∧ function.operation = .next

structure ReadsBytes (closure : Closure) (names : NameTable) : Prop where
  spells : closure.Spells names closure.env "x" readBody
  read : ∃ function, closure.env.Finds names "read" (.builtin function) ∧ function.operation = .read

structure Base (names : NameTable) (printByte readByte : Closure) : Prop where
  prints : printByte.Displays names "n" printBody
  printNames : ∀ text ∈ ["null", "print", "next"], ∃ name value,
    names.numbers[text]? = some name ∧ printByte.env.lookup name = some value
  printFinds : names.Coherent →
    (∃ ident, printByte.env.Finds names "null" (.datum ident (.byte 0))) ∧
    (∃ function, printByte.env.Finds names "print" (.builtin function) ∧
      function.operation = .print) ∧
    ∃ function, printByte.env.Finds names "next" (.builtin function) ∧ function.operation = .next
  printHolds : ∀ (closures : Closure → Prop) (allowed : Builtin → Prop),
    (∀ function : Builtin, function.operation.Native → allowed function) →
      printByte.env.Throughout closures allowed
  reads : readByte.Displays names "x" readBody
  readName : ∃ name function, names.numbers["read"]? = some name ∧
    readByte.env.lookup name = some (.builtin function) ∧ function.operation = .read
  readHolds : ∀ (closures : Closure → Prop) (allowed : Builtin → Prop),
    (∀ function : Builtin, function.operation.Native → allowed function) →
      readByte.env.Throughout closures allowed

theorem Base.printsBytes {names : NameTable} {printByte readByte : Closure}
    (base : Base names printByte readByte) (coherent : names.Coherent) :
    PrintsBytes printByte names := by
  obtain ⟨null, print, next⟩ := base.printFinds coherent
  exact ⟨⟨rfl, base.prints.param, base.prints.spells⟩, null, print, next⟩

theorem Base.readsBytes {names : NameTable} {printByte readByte : Closure}
    (base : Base names printByte readByte) : ReadsBytes readByte names := by
  obtain ⟨name, function, known, bound, operation⟩ := base.readName
  exact ⟨⟨rfl, base.reads.param, base.reads.spells⟩, function, ⟨name, known, bound⟩, operation⟩

/-- The environment consists of the two closures and the extra bindings. -/
theorem exists_base (mint : Mint) :
    ∃ names ident printName readName printByte readByte, mint.names.Interns names ∧
      Base names printByte readByte ∧
      (∀ extra, environment extra mint =
        extendAll (.bind (ident + 1) readName (.closure readByte)
          (.bind ident printName (.closure printByte) .empty)) extra ⟨names, ident + 2⟩) ∧
      names.numbers["PRINT_BYTE"]? = some printName ∧
      names.numbers["READ_BYTE"]? = some readName := by
  -- each part is named before it is used, so that no body is laid out on the way
  unfold environment
  dsimp only
  obtain ⟨toPrintEnv, printNames⟩ := printEnv_binds mint
  have printFinds := fun later => @printEnv_finds mint later
  have printHolds := fun closures allowed native =>
    @throughout_printEnv allowed closures native mint
  generalize printEnv mint = made at toPrintEnv printNames printFinds printHolds ⊢
  obtain ⟨printEnv, mint⟩ := made
  dsimp only at toPrintEnv printNames printFinds printHolds ⊢
  obtain ⟨toReadEnv, name, function, known, bound, operation⟩ := readEnv_binds mint
  have readHolds := fun closures allowed native =>
    @throughout_readEnv allowed closures native mint
  generalize readEnv mint = made at toReadEnv known bound readHolds ⊢
  obtain ⟨readEnv, mint⟩ := made
  dsimp only at toReadEnv known bound readHolds ⊢
  have toPrintName : mint.names.Interns (mint.intern "PRINT_BYTE").2.names :=
    .intern .refl "PRINT_BYTE"
  have printKnown := mint.names.numbers_intern "PRINT_BYTE"
  have prints := Mint.abstracts (show IsName "n" by decide) printBody_named
    (mint.intern "PRINT_BYTE").2 printEnv
  generalize (mint.intern "PRINT_BYTE").2.abstraction printEnv "n" printBody = made at prints ⊢
  obtain ⟨printByte, afterPrint⟩ := made
  dsimp only at prints ⊢
  have toReadName : afterPrint.names.Interns (afterPrint.intern "READ_BYTE").2.names :=
    .intern .refl "READ_BYTE"
  have readKnown := afterPrint.names.numbers_intern "READ_BYTE"
  have reads := Mint.abstracts (show IsName "x" by decide) readBody_named
    (afterPrint.intern "READ_BYTE").2 readEnv
  generalize (afterPrint.intern "READ_BYTE").2.abstraction readEnv "x" readBody = made at reads ⊢
  obtain ⟨readByte, afterRead⟩ := made
  dsimp only at reads ⊢
  have toRead := toReadName.trans reads.interns
  have fromReadEnv := toPrintName.trans (prints.interns.trans toRead)
  refine ⟨afterRead.names, afterRead.nextIdent, _, _, printByte, readByte,
    toPrintEnv.trans (toReadEnv.trans fromReadEnv), ?_, fun _ => rfl,
    (prints.interns.trans toRead).extends _ _ printKnown, reads.interns.extends _ _ readKnown⟩
  constructor
  · exact prints.displays.mono toRead
  · intro text among
    obtain ⟨name, value, known, bound⟩ := printNames text among
    exact ⟨name, value, (toReadEnv.trans fromReadEnv).extends _ _ known, prints.env ▸ bound⟩
  · rw [prints.env]
    exact printFinds afterRead.names (toReadEnv.trans fromReadEnv).extends
  · rw [prints.env]
    exact printHolds
  · exact reads.displays
  · exact ⟨name, function, fromReadEnv.extends _ _ known, reads.env ▸ bound, operation⟩
  · rw [reads.env]
    exact readHolds

theorem finds_printByte {names : NameTable} (coherent : names.Coherent)
    {printName readName : NameId} (print : names.numbers["PRINT_BYTE"]? = some printName)
    (read : names.numbers["READ_BYTE"]? = some readName) (ident : Ident)
    (printByte readByte : Closure) :
    (Env.bind (ident + 1) readName (.closure readByte)
      (.bind ident printName (.closure printByte) .empty)).Finds names "PRINT_BYTE"
        (.closure printByte) :=
  (Env.finds_extend print .empty ident (.closure printByte)).extend coherent
    (show "PRINT_BYTE" ≠ "READ_BYTE" by decide) read (ident + 1) (.closure readByte)

theorem interns_extendAll (env : Env) (extra : List (String × Value)) (mint : Mint) :
    mint.names.Interns (extendAll env extra mint).2.names := by
  induction extra generalizing env mint with
  | nil => exact .refl
  | cons binding rest ih =>
      have rest := ih ((mint.intern binding.1).2.extend env (mint.intern binding.1).1 binding.2).1
        ((mint.intern binding.1).2.extend env (mint.intern binding.1).1 binding.2).2
      exact (NameTable.Interns.intern .refl binding.1).trans rest

end Base

theorem exists_catalog_environment (mint : Mint) :
    ∃ catalog : Catalog, catalog.Bounded (environment [] mint).2.nextIdent ∧
      (environment [] mint).1.Known catalog := by
  have bounded : Catalog.Bounded (fun _ => none) mint.nextIdent := by
    intro ident closure listed
    cases listed
  obtain ⟨later, grows, all⟩ := @forms_environment (fun function => function.operation.Native) _
    mint bounded (fun _ native => native) [] (List.forall_mem_nil _)
  exact ⟨later, grows.after, all⟩

end LambdaMachine.Prelude
