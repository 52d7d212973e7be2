/-
Module: ScriptBytecode.Proofs.Expression.Natives
Purpose: Decoding and writing agree about native functions. A body is decoded with the natives of its package and
  those that the symbols declare, and its calls are written with the same ones; so the kind of a call tells whether
  its function is known when it is written. Main statement: a call of kind `unresolvedNative` is written with a
  placeholder, and any other call of a native function with the name of the function.
Main exports: OpcodeTable.isNative_lookup, OpcodeTable.resolve_native, Code.Encodes, NativeFunction.Written,
  decode_natives
-/
import ScriptBytecode.Decompile
import ScriptBytecode.Proofs.Decoding.Placeholders
import ScriptBytecode.Proofs.Text.Numerals

namespace ScriptBytecode

/-!
### Kinds
-/

theorem Opcode.isNative_of_mem_named {op : Opcode} (h : op ∈ named) : op.isNative = false := by
  have hnamed : ∀ op ∈ named, op.isNative = false := by decide
  exact hnamed op h

theorem Opcode.isNative_canonical (code : UInt8) : (canonical code).isNative = false := by
  rcases canonical_cases code with hnamed | ⟨hunknown, -⟩
  · exact isNative_of_mem_named hnamed
  · rw [hunknown]
    rfl

/-- No plain code is a native call, whatever the documents say. -/
theorem OpcodeTable.isNative_lookup {documents : List RuleEntry} {overrides : List Rule}
    (hdocuments : documents.mapM RuleEntry.rule = .ok overrides) (format : Format) {code : UInt8}
    (hcode : code.toNat < firstExtendedNative) : ((ofRules format overrides).lookup code).isNative = false := by
  obtain ⟨rule, hdecides⟩ := exists_decides_of_lt hcode format overrides
  rw [lookup_of_decides hcode hdecides, Rule.apply]
  cases haction : rule.action with
  | canonical => exact Opcode.isNative_canonical code
  | shift delta =>
      unfold Action.apply
      dsimp only
      split
      · exact Opcode.isNative_canonical _
      · rfl
  | kind op => exact Opcode.isNative_of_mem_named (hdecides.action hdocuments haction)
  | legacyCast => rfl
  | unused => rfl

/-- A native call has an ordinal in its code, and its kind tells whether a function is known for it. -/
theorem OpcodeTable.resolve_native {table : OpcodeTable} {natives : NativeLookup} {code : Code}
    (hplain : code.first.toNat < firstExtendedNative → (table.lookup code.first).isNative = false)
    (h : (table.resolve natives code).isNative = true) :
    ∃ k, code.ordinal? = some k ∧
      table.resolve natives code = if (natives k).isSome then .native k else .unresolvedNative k := by
  unfold resolve at h ⊢
  by_cases hfirst : code.first.toNat < firstExtendedNative
  · rw [if_pos hfirst, hplain hfirst] at h
    cases h
  · rw [if_neg hfirst] at h ⊢
    cases hordinal : code.ordinal? with
    | some k => exact ⟨k, rfl, rfl⟩
    | none =>
        rw [hordinal] at h
        cases h

/-- The stored code, as a number, holds the ordinal of a native function: it is the ordinal itself if it is one byte,
    and the ordinal behind the head of the extended band if it is two. -/
def Code.Encodes (code : Code) (k : Nat) : Prop :=
  (code.raw = k ∧ 0x70 ≤ k ∧ k ≤ 0xFF) ∨ (code.raw = 0x6000 + k ∧ k ≤ 0xFFF)

theorem Decoder.encodes_of_code {place next : Place} {code : Code} {k : Nat} (h : Decoder.code place = .ok code next)
    (hordinal : code.ordinal? = some k) : code.Encodes k := by
  have hextension := Decoder.isSome_extension h
  obtain ⟨first, extension⟩ := code
  have hbyte := first.toNat_lt
  unfold Code.ordinal? at hordinal
  split at hordinal
  case isTrue hnative =>
    cases hordinal
    rw [Code.needsExtension, decide_eq_false (Nat.not_lt.2 hnative), Bool.and_false] at hextension
    obtain rfl := Option.not_isSome_iff_eq_none.1 (Bool.eq_false_iff.1 hextension)
    exact .inl ⟨rfl, hnative, Nat.le_of_lt_succ hbyte⟩
  case isFalse hnative =>
    split at hordinal
    case isTrue hneeds =>
      obtain ⟨second, rfl, rfl⟩ := Option.map_eq_some_iff.1 hordinal
      have hsecond := second.toNat_lt
      obtain ⟨hlow, hhigh⟩ := (Bool.and_eq_true ..).mp hneeds
      have hlow : 0x60 ≤ first.toNat := of_decide_eq_true hlow
      have hhigh : first.toNat < 0x70 := of_decide_eq_true hhigh
      right
      simp only [Code.raw, firstExtendedNative]
      omega
    case isFalse => cases hordinal

theorem Token.ordinal_of_suits {format : Format} {known : Bool} {ordinal k : Nat} {args : List Instruction}
    (h : (Token.call (.native k) args).Suits format (if known then .native ordinal else .unresolvedNative ordinal)) :
    ordinal = k := by
  cases known with
  | true => simpa [Suits, CallTarget.Suits] using h
  | false => simpa [Suits, CallTarget.Suits] using h

/-- The native calls are those whose token calls a native function. -/
theorem Instruction.Composed.isNative_iff {dialect : Dialect} {levels : Nat} {i : Instruction}
    {place afterCode next : Place} {parts : List Filled} (h : i.Composed dialect levels place afterCode next parts) :
    i.opcode.isNative = true ↔ ∃ k args, i.token = .call (.native k) args := by
  constructor
  · intro hnative
    have hyields := h.yields
    generalize i.opcode = opcode at hnative hyields
    generalize i.token = token at hyields
    cases opcode with
    | native k | unresolvedNative k =>
        obtain - | hdone := hyields
        cases hdone
        exact ⟨k, _, rfl⟩
    | _ => cases hnative
  · rintro ⟨k, args, htoken⟩
    have hsuits := h.madeOf.suits
    rw [htoken] at hsuits
    rcases hsuits with hopcode | hopcode
    · rw [hopcode]
      rfl
    · rw [hopcode]
      rfl

/-!
### Texts
-/

/-- The text is a call of the native function, by its name. -/
inductive NativeFunction.Written (function : NativeFunction) (scope : Scope) : String → Prop where
  | call (listed : String) : Written function scope s!"{scope.callStart}{function.name}({listed})"
  | binary (left right : String) (hstyle : function.style = .operator) :
      Written function scope s!"{left} {function.name} {right}"
  | before (blank operand : String) (hstyle : function.style = .preOperator) :
      Written function scope s!"{function.name}{blank}{operand}"
  | after (blank operand : String) (hstyle : function.style = .postOperator) :
      Written function scope s!"{operand}{blank}{function.name}"

theorem nativeCallText_written {scope : Scope} {function : NativeFunction} {args : List Operand}
    {remark next : Option String} {text : String} (h : nativeCallText scope function args remark = .ok text next) :
    function.Written scope text := by
  revert h
  fun_cases nativeCallText scope function args
  case case1 lhs rhs hstyle =>
    intro h
    obtain ⟨left, middle, -, hrest⟩ := bind_eq_ok h
    obtain ⟨right, last, -, hpure⟩ := bind_eq_ok hrest
    cases hpure
    exact .binary left right hstyle
  case case2 operand hstyle =>
    intro h
    obtain ⟨inner, middle, -, hpure⟩ := bind_eq_ok h
    cases hpure
    exact .before _ inner hstyle
  case case3 operand hstyle =>
    intro h
    obtain ⟨inner, middle, -, hpure⟩ := bind_eq_ok h
    cases hpure
    exact .after _ inner hstyle
  case case4 =>
    intro h
    obtain ⟨listed, middle, -, hpure⟩ := bind_eq_ok h
    cases hpure
    exact .call listed

/-- Up to a mark that it does not hold, a word agrees with a text that has the same mark further on. -/
theorem starts_of_mark {word name rest : List Char} {mark : Char} (hmark : mark ∉ word)
    (h : word ++ [mark] <+: name ++ mark :: rest) : word <+: name := by
  have hword : word <+: name ++ mark :: rest := (List.prefix_append word [mark]).trans h
  rcases List.prefix_or_prefix_of_prefix hword (List.prefix_append name (mark :: rest)) with hstarts | ⟨tail, rfl⟩
  · exact hstarts
  · cases tail with
    | nil => simp
    | cons head tail =>
        rw [List.append_assoc, List.prefix_append_right_inj, List.cons_append, List.cons_prefix_cons] at h
        exact absurd (by simp [h.1]) hmark

theorem placeholder_eq_cons (k : Nat) :
    s!"__native_{k}".toList = '_' :: (['_', 'n', 'a', 't', 'i', 'v', 'e', '_'] ++ (toString k).toList) :=
  String.toList_append

theorem paren_not_mem_placeholder (k : Nat) : '(' ∉ s!"__native_{k}".toList := by
  have hdigits : '(' ∉ (toString k).toList := (Text.isAlphanumeric_decimal k).not_mem rfl
  rw [placeholder_eq_cons]
  simpa using hdigits

/-- A function that is called by its name is written like a placeholder only if its own name starts like one. -/
theorem NativeFunction.Written.name_starts {function : NativeFunction} {scope : Scope} {text : String} {k : Nat}
    (h : function.Written scope text) (hstyle : function.style = .function)
    (hstarts : s!"__native_{k}(".toList <+: text.toList) : s!"__native_{k}".toList <+: function.name.toList := by
  cases h with
  | call listed =>
      have hword : s!"__native_{k}(".toList = s!"__native_{k}".toList ++ ['('] := String.toList_append
      have htext : s!"{scope.callStart}{function.name}({listed})".toList =
          scope.callStart.toList ++ (function.name.toList ++ '(' :: (listed.toList ++ [')'])) := by
        show (scope.callStart ++ function.name ++ "(" ++ listed ++ ")").toList = _
        simp only [String.toList_append, List.append_assoc]
        rfl
      rw [hword, htext] at hstarts
      unfold Scope.callStart at hstarts
      split at hstarts
      · obtain ⟨rest, hrest⟩ := hstarts
        rw [placeholder_eq_cons] at hrest
        cases List.head_eq_of_cons_eq hrest
      · exact starts_of_mark (paren_not_mem_placeholder k) hstarts
  | binary _ _ hother | before _ _ hother | after _ _ hother => cases hstyle.symm.trans hother

/-!
### Agreement
-/

theorem Instruction.expression_call {i : Instruction} {target : CallTarget} {args : List Instruction}
    (h : i.token = .call target args) (words : Vocabulary) (scope : Scope) :
    i.expression words scope = callText words scope target (operandList words args) := by
  obtain ⟨code, opcode, position, size, storagePosition, storageSize, token⟩ := i
  subst h
  rw [expression]

theorem callText_native_of_none {words : Vocabulary} {k : Nat} (h : words.native k = none) {scope : Scope}
    {args : List Operand} {remark next : Option String} {text : String}
    (hrun : callText words scope (.native k) args remark = .ok text next) :
    ∃ listed : String, text = s!"__native_{k}({listed})" := by
  simp only [callText, h] at hrun
  obtain ⟨_, middle, -, hrest⟩ := bind_eq_ok hrun
  obtain ⟨listed, last, -, hpure⟩ := bind_eq_ok hrest
  cases hpure
  exact ⟨listed, rfl⟩

theorem callText_native_of_some {words : Vocabulary} {k : Nat} {function : NativeFunction}
    (h : words.native k = some function) {scope : Scope} {args : List Operand} {remark next : Option String}
    {text : String} (hrun : callText words scope (.native k) args remark = .ok text next) :
    function.Written scope text := by
  simp only [callText, h] at hrun
  exact nativeCallText_written hrun

/-- Decoding and writing agree about a call of the native function with the given ordinal. -/
structure Instruction.AgreesOn (words : Vocabulary) (k : Nat) (i : Instruction) : Prop where
  /-- The code holds the ordinal. -/
  ordinal : i.code.ordinal? = some k ∧ i.code.Encodes k
  /-- The kind is that of a known function if and only if the function is known for writing. -/
  known : i.opcode = .native k ↔ (words.native k).isSome = true
  unknown : i.opcode = .unresolvedNative k ↔ words.native k = none
  /-- An unknown function is written with a placeholder. -/
  placeholder : i.opcode = .unresolvedNative k → ∀ scope remark text next,
    i.expression words scope remark = .ok text next → ∃ listed : String, text = s!"__native_{k}({listed})"
  /-- A known function is written with its name. Called as a function it starts like a placeholder only if its name
      does. -/
  named : i.opcode = .native k → ∃ function, words.native k = some function ∧
    ∀ scope remark text next, i.expression words scope remark = .ok text next →
      function.Written scope text ∧ (function.style = .function → s!"__native_{k}(".toList <+: text.toList →
        s!"__native_{k}".toList <+: function.name.toList)

theorem readInstruction_agrees {dialect : Dialect} {words : Vocabulary} (hnatives : dialect.natives = words.native)
    (hplain : ∀ code : UInt8, code.toNat < firstExtendedNative → (dialect.table.lookup code).isNative = false)
    {levels : Nat} {place next : Place} {i : Instruction} (h : readInstruction dialect levels place = .ok i next) :
    (i.opcode.isNative = true ↔ ∃ k args, i.token = .call (.native k) args) ∧
      ∀ k args, i.token = .call (.native k) args → i.AgreesOn words k := by
  obtain ⟨fewer, afterCode, parts, -, hcomposed⟩ := readInstruction_composed h
  refine ⟨hcomposed.isNative_iff, fun k args htoken => ?_⟩
  have hnative := hcomposed.isNative_iff.2 ⟨k, args, htoken⟩
  rw [← hcomposed.kind] at hnative
  obtain ⟨ordinal, hordinal, hkind⟩ := OpcodeTable.resolve_native (hplain _) hnative
  rw [hcomposed.kind, hnatives] at hkind
  -- The kind has the ordinal of the code, and the callee that of the kind.
  obtain rfl : ordinal = k := by
    have hsuits := hcomposed.madeOf.suits
    rw [htoken, hkind] at hsuits
    exact Token.ordinal_of_suits hsuits
  have hknown : i.opcode = .native ordinal ↔ (words.native ordinal).isSome = true := by
    cases hfound : words.native ordinal <;> simp [hkind, hfound]
  have hunknown : i.opcode = .unresolvedNative ordinal ↔ words.native ordinal = none := by
    cases hfound : words.native ordinal <;> simp [hkind, hfound]
  refine ⟨⟨hordinal, Decoder.encodes_of_code hcomposed.code hordinal⟩, hknown, hunknown, ?_, ?_⟩
  · intro hopcode scope remark text next hrun
    rw [Instruction.expression_call htoken] at hrun
    exact callText_native_of_none (hunknown.1 hopcode) hrun
  · intro hopcode
    obtain ⟨function, hfound⟩ := Option.isSome_iff_exists.1 (hknown.1 hopcode)
    refine ⟨function, hfound, fun scope remark text next hrun => ?_⟩
    rw [Instruction.expression_call htoken] at hrun
    have hwritten := callText_native_of_some hfound hrun
    exact ⟨hwritten, hwritten.name_starts⟩

/-- Decode a body with natives and symbols, and write it with the same ones. Then every native call, at any depth, is
    of the kind `native k` if a function is known for its ordinal `k` when it is written, and `unresolvedNative k` if
    none is. The ordinal is the one in its code. It is written with the placeholder in the second case and with the
    name of the function in the first. -/
theorem decode_natives (source : Source) (natives : NativeLookup) (symbols : Symbols) (format : Format)
    (owner : Option String) {documents : List RuleEntry} {overrides : List Rule}
    (hdocuments : documents.mapM RuleEntry.rule = .ok overrides) :
    let package : Package := ⟨.ofRules format overrides, natives, symbols⟩
    let body := source.decode package.dialect
    body.Everywhere fun node =>
      (node.opcode.isNative = true ↔ ∃ k args, node.token = .call (.native k) args) ∧
        ∀ k args, node.token = .call (.native k) args → node.AgreesOn (package.vocabulary body owner) k := by
  intro package body
  exact decode_everywhere
    (readInstruction_agrees rfl fun code hcode => OpcodeTable.isNative_lookup hdocuments format hcode) source

/-- The negation of a call of a function that nobody knows. -/
def negatedCall : Source := ⟨"", [0x81, 0x61, 0xFF, 0x16, 0x16], 5⟩

/-- Knows the negation. -/
def negation : NativeLookup := fun k => if k = 0x81 then some (.preOperator "!") else none

theorem decode_natives_negatedCall :
    let package : Package := ⟨.ofRules ⟨512, 0⟩ [], negation, .empty⟩
    let body := negatedCall.decode package.dialect
    [].mapM RuleEntry.rule = .ok [] ∧
      ∃ i c, body.instructions[0]? = some i ∧ i.operands = [c] ∧
        (i.opcode = .native 129 ∧ i.AgreesOn (package.vocabulary body none) 129) ∧
        c.opcode = .unresolvedNative 511 ∧ c.AgreesOn (package.vocabulary body none) 511 := by
  intro package body
  have hdocuments : [].mapM RuleEntry.rule = .ok [] := rfl
  have hagrees := decode_natives negatedCall negation .empty ⟨512, 0⟩ none hdocuments
  have hfirst : ∃ i, body.instructions[0]? = some i ∧ i.opcode = .native 129 ∧
      ∃ c, i.token = .call (.native 129) [c] ∧ c.opcode = .unresolvedNative 511 ∧ c.token = .call (.native 511) [] :=
    ⟨_, rfl, rfl, _, rfl, rfl, rfl⟩
  obtain ⟨i, hi, hkind, c, htoken, hnested, hcallee⟩ := hfirst
  have hoperands : i.operands = [c] := by
    rw [Instruction.operands, htoken]
    rfl
  have hnode := hagrees i (Array.mem_of_getElem? hi)
  have hself : i.Contains i := Instruction.contains_iff.2 (.inl rfl)
  have hchild : i.Contains c :=
    Instruction.contains_iff.2 (.inr ⟨c, by simp [hoperands], Instruction.contains_iff.2 (.inl rfl)⟩)
  exact ⟨hdocuments, i, c, hi, hoperands, ⟨hkind, (hnode i hself).2 129 [c] htoken⟩,
    hnested, (hnode c hchild).2 511 [] hcallee⟩

end ScriptBytecode
