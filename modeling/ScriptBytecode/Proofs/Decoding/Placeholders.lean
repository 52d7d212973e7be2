/-
Module: ScriptBytecode.Proofs.Decoding.Placeholders
Purpose: A code without a meaning keeps its byte. The rules of a table leave such a code as it is, whatever the
  documents say, with one exception: a shift onto a code that the numbering leaves out gives the byte of that other
  code. Main statement: apart from such shifts, the placeholder in a decoded tree, in a source text and in a listing
  is the byte of the blob.
Main exports: Rule.shiftsOntoGap, Rule.apply_eq_unknown, RuleEntry.rule_action, OpcodeTable.lookup_eq_unknown,
  readInstruction_everywhere_from, readInstruction_head, decode_unknown
-/
import ScriptBytecode.Document.Rules
import ScriptBytecode.Expression
import ScriptBytecode.Listing
import ScriptBytecode.Proofs.Decoding.Conformance
import ScriptBytecode.Proofs.Decoding.Resolution

namespace ScriptBytecode

/-!
### Codes without a meaning
-/

theorem Opcode.ne_unknown_of_mem_named {op : Opcode} (h : op ∈ named) (byte : UInt8) : op ≠ .unknown byte := by
  rintro rfl
  simp [named, numbering, unnumbered] at h

/-- The canonical kind of a code is one that can be named, unless the numbering leaves the code out. -/
theorem Opcode.canonical_cases (code : UInt8) :
    canonical code ∈ named ∨ canonical code = .unknown code ∧ numbering.lookup code = none := by
  cases hlookup : numbering.lookup code with
  | none =>
      rw [canonical, hlookup]
      exact .inr ⟨rfl, rfl⟩
  | some op =>
      obtain ⟨before, after, hsplit, -⟩ := List.lookup_eq_some_iff.1 hlookup
      rw [canonical, hlookup]
      left
      apply List.mem_append_left
      apply List.mem_map.2
      exact ⟨(code, op), by simp [hsplit], rfl⟩

/-- Only a code that the numbering leaves out has no canonical kind, and it stands for itself. -/
theorem Opcode.canonical_eq_unknown {code byte : UInt8} (h : canonical code = .unknown byte) :
    byte = code ∧ numbering.lookup code = none := by
  rcases canonical_cases code with hnamed | ⟨hself, hlookup⟩
  · exact absurd h (ne_unknown_of_mem_named hnamed byte)
  · cases hself.symm.trans h
    exact ⟨rfl, hlookup⟩

/-- The rule moves a code to one that the numbering leaves out. -/
def Rule.shiftsOntoGap (rule : Rule) (code : UInt8) : Bool :=
  match rule.action with
  | .shift delta =>
    let shifted := (code.toNat : Int) + delta
    delta ≠ 0 ∧ 0 ≤ shifted ∧ shifted < firstExtendedNative ∧ numbering.lookup (UInt8.ofNat shifted.toNat) = none
  | _ => false

/-- A rule that takes the meaning from a code gives the code itself, or names another one. -/
theorem Rule.apply_eq_unknown {rule : Rule} {code byte : UInt8} (h : rule.apply code = .unknown byte) :
    byte = code ∨ rule.shiftsOntoGap code = true ∨ rule.action = .kind (.unknown byte) := by
  obtain ⟨first, last, window, action⟩ := rule
  cases action with
  | canonical => exact .inl (Opcode.canonical_eq_unknown h).1
  | shift delta =>
      simp only [Rule.apply, Action.apply] at h
      split at h
      case isFalse =>
        cases h
        exact .inl rfl
      case isTrue hrange =>
        obtain ⟨hbyte, hgap⟩ := Opcode.canonical_eq_unknown h
        by_cases hstays : delta = 0
        · left
          simp [hbyte, hstays]
        · right
          left
          simp only [shiftsOntoGap, decide_eq_true_eq]
          exact ⟨hstays, hrange.1, hrange.2, hgap⟩
  | kind op => exact .inr (.inr (congrArg Action.kind h))
  | legacyCast => cases h
  | unused =>
      cases h
      exact .inl rfl

/-!
### Documents

A document names kinds by their listing names, and so do the rules of the engine generations. Codes without a meaning
and native calls have no such name.
-/

theorem RuleEntry.mem_named_of_mem_actions {entry : RuleEntry} {actions : List Action} (h : entry.actions = .ok actions)
    {op : Opcode} (hop : Action.kind op ∈ actions) : op ∈ Opcode.named := by
  unfold RuleEntry.actions at h
  cases hname : entry.opcode with
  | none =>
      rw [hname] at h
      cases h
      revert hop
      cases entry.shift <;> cases entry.legacyCast <;> cases entry.unused <;> simp
  | some name =>
      cases hkind : Opcode.ofName? name with
      | none =>
          simp only [hname, hkind] at h
          cases h
      | some found =>
          simp only [hname, hkind] at h
          cases h
          have heq : op = found := by
            revert hop
            cases entry.shift <;> cases entry.legacyCast <;> cases entry.unused <;> simp
          rw [heq]
          exact List.mem_of_find?_eq_some hkind

/-- A fixed kind in the rule of an entry is one that can be named. -/
theorem RuleEntry.rule_action {entry : RuleEntry} {rule : Rule} (h : entry.rule = .ok rule) {op : Opcode}
    (hop : rule.action = .kind op) : op ∈ Opcode.named := by
  unfold RuleEntry.rule at h
  simp only at h
  split at h
  · cases h
  cases hactions : entry.actions with
  | error e =>
      rw [hactions] at h
      cases h
  | ok actions =>
      rw [hactions] at h
      cases actions with
      | nil =>
          cases h
          cases hop
      | cons action rest =>
          cases rest with
          | nil =>
              cases h
              exact mem_named_of_mem_actions hactions (List.mem_singleton.2 hop.symm)
          | cons second rest => cases h

theorem action_of_mem_documents {documents : List RuleEntry} {overrides : List Rule}
    (h : documents.mapM RuleEntry.rule = .ok overrides) {rule : Rule} (hrule : rule ∈ overrides) {op : Opcode}
    (hop : rule.action = .kind op) : op ∈ Opcode.named := by
  induction documents generalizing overrides with
  | nil =>
      cases h
      cases hrule
  | cons entry rest ih =>
      rw [List.mapM_cons] at h
      cases hentry : entry.rule with
      | error e =>
          rw [hentry] at h
          cases h
      | ok first =>
          cases hrest : rest.mapM RuleEntry.rule with
          | error e =>
              rw [hentry, hrest] at h
              cases h
          | ok others =>
              rw [hentry, hrest] at h
              cases h
              rcases List.mem_cons.1 hrule with rfl | hrule
              · exact RuleEntry.rule_action hentry hop
              · exact ih hrest hrule

theorem action_of_mem_eraRules {rule : Rule} (h : rule ∈ eraRules) {op : Opcode} (hop : rule.action = .kind op) :
    op ∈ Opcode.named := by
  have hkinds : ∀ rule ∈ eraRules, ∀ op, rule.action = .kind op →
      op ∈ [.undefinedVariable, .dynArrayInsert, .dynArrayRemove, .rangeConst] := by
    simp [eraRules]
  have hnamed : ∀ op ∈ [Opcode.undefinedVariable, .dynArrayInsert, .dynArrayRemove, .rangeConst],
      op ∈ Opcode.named := by
    decide
  exact hnamed op (hkinds rule h op hop)

/-- The fixed kind of a rule that decides about a code can be named. -/
theorem Decides.action {documents : List RuleEntry} {overrides : List Rule} {format : Format} {code : UInt8}
    {rule : Rule} (h : Decides (eraRules ++ overrides) format code rule)
    (hdocuments : documents.mapM RuleEntry.rule = .ok overrides) {op : Opcode} (hop : rule.action = .kind op) :
    op ∈ Opcode.named := by
  rcases List.mem_append.1 h.mem with hera | hoverride
  · exact action_of_mem_eraRules hera hop
  · exact action_of_mem_documents hdocuments hoverride hop

/-- A plain code without a meaning keeps its byte, unless the rule that decides about it shifts it onto a gap. -/
theorem OpcodeTable.lookup_eq_unknown {documents : List RuleEntry} {overrides : List Rule} {format : Format}
    {code byte : UInt8} (hdocuments : documents.mapM RuleEntry.rule = .ok overrides)
    (hcode : code.toNat < firstExtendedNative) (h : (ofRules format overrides).lookup code = .unknown byte)
    (hstays : ∀ rule, Decides (eraRules ++ overrides) format code rule → rule.shiftsOntoGap code = false) :
    byte = code := by
  obtain ⟨rule, hdecides⟩ := exists_decides_of_lt hcode format overrides
  rw [lookup_of_decides hcode hdecides] at h
  rcases Rule.apply_eq_unknown h with hbyte | hshift | hkind
  · exact hbyte
  · rw [hstays rule hdecides] at hshift
    cases hshift
  · exact absurd rfl (Opcode.ne_unknown_of_mem_named (hdecides.action hdocuments hkind) byte)

/-!
### Bytes of the blob
-/

/-- A second byte is read for the codes that need one, and for no other. -/
theorem Decoder.isSome_extension {place next : Place} {code : Code} (h : Decoder.code place = .ok code next) :
    code.extension.isSome = Code.needsExtension code.first := by
  obtain ⟨first, middle, -, hrest⟩ := bind_eq_ok h
  split at hrest
  case isTrue hneeds =>
    obtain ⟨second, stop, -, hpure⟩ := bind_eq_ok hrest
    cases hpure
    exact hneeds.symm
  case isFalse hplain =>
    cases hrest
    exact (Bool.eq_false_iff.2 hplain).symm

/-- A code without a meaning that was read is a plain one. -/
theorem toNat_first_lt_of_unknown {dialect : Dialect} {place next : Place} {code : Code} {byte : UInt8}
    (hcode : Decoder.code place = .ok code next) (h : dialect.table.resolve dialect.natives code = .unknown byte) :
    code.first.toNat < firstExtendedNative := by
  by_contra hpast
  have hextension := Decoder.isSome_extension hcode
  rw [OpcodeTable.resolve, if_neg hpast] at h
  cases hordinal : code.ordinal? with
  | some ordinal =>
      rw [hordinal] at h
      simp only at h
      split at h <;> cases h
  | none =>
      unfold Code.ordinal? at hordinal
      split at hordinal
      · cases hordinal
      · rename_i hnative
        have hneeds : Code.needsExtension code.first = true := by
          simp only [Code.needsExtension, Bool.and_eq_true, decide_eq_true_eq]
          omega
        rw [if_pos hneeds, Option.map_eq_none_iff] at hordinal
        rw [hneeds, hordinal] at hextension
        cases hextension

/-- Every link of a chain has been read behind the start of the chain. -/
theorem Chain.exists_reaches {dialect : Dialect} {levels : Nat} {place next : Place} {operands : List Instruction}
    (h : Chain dialect levels place operands next) {c : Instruction} (hc : c ∈ operands) :
    ∃ start stop, place.Reaches start ∧ readInstruction dialect levels start = .ok c stop := by
  have hR := Place.Reaches.preorderly
  induction h with
  | nil => cases hc
  | cons hreach _ hread _ ih =>
      rcases List.mem_cons.1 hc with rfl | hc
      · exact ⟨_, _, hreach, hread⟩
      · obtain ⟨start, stop, hstart, hread'⟩ := ih hc
        exact ⟨start, stop, hR.trans hreach (hR.trans (readInstruction_spans hread).reaches hstart), hread'⟩

/-- What holds of every instruction that is read behind a place holds everywhere in it. -/
theorem readInstruction_everywhere_from {dialect : Dialect} {P : Instruction → Prop} {origin : Place}
    (hP : ∀ {levels place next i}, origin.Reaches place → readInstruction dialect levels place = .ok i next → P i)
    (levels : Nat) : ∀ {place next : Place} {i : Instruction}, origin.Reaches place →
      readInstruction dialect levels place = .ok i next → i.Everywhere P := by
  have hR := Place.Reaches.preorderly
  induction levels with
  | zero => exact fun _ h => nomatch h
  | succ levels ih =>
      intro place next i horigin h
      obtain ⟨fewer, afterCode, parts, hlevels, hcomposed⟩ := readInstruction_composed h
      cases hlevels
      refine Instruction.everywhere_iff.2 ⟨hP horigin h, fun c hc => ?_⟩
      obtain ⟨start, stop, hstart, hread⟩ := hcomposed.chain.exists_reaches hc
      have hcode := (Place.Reaches.primitiveMoves dialect.format).code.of_ok hcomposed.code
      exact ih (hR.trans horigin (hR.trans hcode hstart)) hread

/-- What is next at a later place stands in the blob at the offset of the place. -/
theorem Place.Reaches.head? {bytes : List UInt8} {place : Place} (h : (Place.start bytes).Reaches place) :
    bytes[place.input.offset]? = place.input.rest.head? := by
  obtain ⟨read, hrest, hoffset⟩ := h.input
  simp only [Place.start, Input.ofBytes] at hrest hoffset
  rw [hrest, hoffset, Nat.zero_add, List.getElem?_append_right (Nat.le_refl _), Nat.sub_self,
    List.head?_eq_getElem?]

/-- An instruction starts with the byte that stands in the blob at its offset. -/
theorem readInstruction_head {dialect : Dialect} {levels : Nat} {bytes : List UInt8} {place next : Place}
    {i : Instruction} (horigin : (Place.start bytes).Reaches place)
    (h : readInstruction dialect levels place = .ok i next) : bytes[i.storagePosition]? = some i.code.first := by
  obtain ⟨fewer, afterCode, parts, -, hcomposed⟩ := readInstruction_composed h
  rw [(readInstruction_spans h).storagePosition, horigin.head?, Decoder.code_head? hcomposed.code]

/-!
### Placeholders
-/

/-- The node starts with the byte of the blob, and if its code has no meaning it is a plain code without operands. -/
structure Instruction.Grounded (bytes : List UInt8) (dialect : Dialect) (node : Instruction) : Prop where
  head : bytes[node.storagePosition]? = some node.code.first
  kind : dialect.table.resolve dialect.natives node.code = node.opcode
  plain : ∀ byte, node.opcode = .unknown byte →
    node.code.first.toNat < firstExtendedNative ∧ node.code.extension = none ∧ node.token = .unknown

theorem readInstruction_grounded {dialect : Dialect} {levels : Nat} {bytes : List UInt8} {place next : Place}
    {i : Instruction} (horigin : (Place.start bytes).Reaches place)
    (h : readInstruction dialect levels place = .ok i next) : i.Grounded bytes dialect := by
  obtain ⟨fewer, afterCode, parts, -, hcomposed⟩ := readInstruction_composed h
  refine ⟨readInstruction_head horigin h, hcomposed.kind, fun byte hbyte => ?_⟩
  have hplain := toNat_first_lt_of_unknown hcomposed.code (hcomposed.kind.trans hbyte)
  have hextension := Decoder.isSome_extension hcomposed.code
  rw [Code.needsExtension, decide_eq_false (Nat.not_le.2 hplain)] at hextension
  have hyields := hcomposed.yields
  rw [hbyte] at hyields
  refine ⟨hplain, Option.not_isSome_iff_eq_none.1 (Bool.eq_false_iff.1 hextension), ?_⟩
  generalize i.token = token at hyields
  cases hyields
  rfl

theorem decode_grounded (source : Source) (dialect : Dialect) :
    (source.decode dialect).Everywhere (Instruction.Grounded source.bytes dialect) := by
  intro i hi
  obtain ⟨start, stop, hstart, hread⟩ :=
    exists_moves_of_mem_decode (Place.Reaches.primitiveMoves dialect.format) hi
  exact readInstruction_everywhere_from readInstruction_grounded maxNesting hstart hread

theorem Body.line_mem_listingLines {body : Body} {i : Instruction} (hi : i ∈ body.instructions) {depth : Nat}
    {node : Instruction} (hnode : (depth, node) ∈ i.visit) : node.line depth ∈ body.listingLines := by
  apply List.mem_append_left
  apply List.mem_cons_of_mem
  apply List.mem_flatMap.2
  exact ⟨i, Array.mem_toList_iff.2 hi, List.mem_map.2 ⟨(depth, node), hnode, rfl⟩⟩

/-- A line ends in the kind if there is nothing more to say. -/
theorem Instruction.exists_line_eq {i : Instruction} (h : i.detail = "") (depth : Nat) :
    ∃ lead, i.line depth = lead ++ i.opcode.text := by
  unfold Instruction.line
  rw [h]
  apply Exists.intro
  exact String.append_empty

/-- With overrides from documents, a node at any depth of a decoded tree whose code has no meaning holds the byte of the
    blob at its offset, which is all of its code, unless the rule that decides about this byte shifts it onto a gap. So
    the source text shows this byte, and so does the line of the node in the listing. -/
theorem decode_unknown (source : Source) {dialect : Dialect} {documents : List RuleEntry} {overrides : List Rule}
    {format : Format} (hdocuments : documents.mapM RuleEntry.rule = .ok overrides)
    (htable : dialect.table = .ofRules format overrides) {i node : Instruction} {depth : Nat}
    (hi : i ∈ (source.decode dialect).instructions) (hnode : (depth, node) ∈ i.visit) {byte : UInt8}
    (hopcode : node.opcode = .unknown byte)
    (hstays : ∀ rule, Decides (eraRules ++ overrides) format node.code.first rule →
      rule.shiftsOntoGap node.code.first = false) :
    (source.bytes[node.storagePosition]? = some byte ∧ node.code.raw = byte.toNat) ∧
      (∀ words scope, node.expression words scope = pure s!"/*@Unknown 0x{Text.hexUpper 2 byte.toNat}*/") ∧
      node.line depth ∈ (source.decode dialect).listingLines ∧
      ∃ lead, node.line depth = lead ++ s!"Unknown({Text.codeByte byte.toNat})" := by
  obtain ⟨hhead, hkind, hplain⟩ := decode_grounded source dialect i hi node ⟨depth, hnode⟩
  obtain ⟨hfirst, hextension, htoken⟩ := hplain byte hopcode
  have hlookup : (OpcodeTable.ofRules format overrides).lookup node.code.first = .unknown byte := by
    rw [← htable, ← hopcode, ← hkind, OpcodeTable.resolve, if_pos hfirst]
  have hbyte := OpcodeTable.lookup_eq_unknown hdocuments hfirst hlookup hstays
  refine ⟨⟨?_, ?_⟩, ?_, ?_, ?_⟩
  · rw [hhead, hbyte]
  · rw [Code.raw, hextension, hbyte]
  · intro words scope
    obtain ⟨code, opcode, position, size, storagePosition, storageSize, token⟩ := node
    simp only at hopcode htoken
    subst hopcode htoken
    rw [Instruction.expression]
    rfl
  · exact Body.line_mem_listingLines hi hnode
  · have hdetail : node.detail = "" := by rw [Instruction.detail, htoken]
    obtain ⟨lead, hline⟩ := Instruction.exists_line_eq hdetail depth
    rw [hopcode] at hline
    exact ⟨lead, hline⟩

/-- Documents of a branch: one takes the meaning from a code, and one moves a code that is not numbered. -/
def branchDocuments : List RuleEntry := [{ first := 0x2A, unused := true }, { first := 0x4C, shift := some (-1) }]

/-- The rules that the documents stand for. -/
def documentRules : List Rule := [⟨0x2A, 0x2A, {}, .unused⟩, ⟨0x4C, 0x4C, {}, .shift (-1)⟩]

/-- A dialect with overrides, for a format without licensee. No natives and no names are known. -/
def overriddenDialect (overrides : List Rule) : Dialect := ⟨.ofRules ⟨512, 0⟩ overrides, .empty, fun _ => none⟩

/-- An assignment between two codes without a meaning. -/
def gapAssignment : Source := ⟨"F", [0x0F, 0x2A, 0x2B], 3⟩

/-- The target of the assignment. -/
def gapTarget : Instruction := ⟨⟨0x2A, none⟩, .unknown 0x2A, 1, 1, 1, 1, .unknown⟩

theorem decode_unknown_gapAssignment :
    branchDocuments.mapM RuleEntry.rule = .ok documentRules ∧
      (∃ i ∈ (gapAssignment.decode (overriddenDialect documentRules)).instructions, (1, gapTarget) ∈ i.visit) ∧
      (gapAssignment.bytes[gapTarget.storagePosition]? = some 0x2A ∧ gapTarget.code.raw = 0x2A) ∧
      (∀ words scope, gapTarget.expression words scope = pure s!"/*@Unknown 0x{Text.hexUpper 2 0x2A}*/") ∧
      gapTarget.line 1 ∈ (gapAssignment.decode (overriddenDialect documentRules)).listingLines ∧
      ∃ lead, gapTarget.line 1 = lead ++ s!"Unknown({Text.codeByte 0x2A})" := by
  have hdocuments : branchDocuments.mapM RuleEntry.rule = .ok documentRules := rfl
  have hbody : (gapAssignment.decode (overriddenDialect documentRules)).instructions =
      #[⟨⟨0x0F, none⟩, .letValue, 0, 3, 0, 3,
        .letValue gapTarget ⟨⟨0x2B, none⟩, .unknown 0x2B, 2, 1, 2, 1, .unknown⟩⟩] := rfl
  have hvisit : ∀ i ∈ (gapAssignment.decode (overriddenDialect documentRules)).instructions,
      (1, gapTarget) ∈ i.visit := by
    intro i hi
    rw [hbody] at hi
    obtain rfl := Array.mem_singleton.1 hi
    apply Instruction.mem_visitFrom.2
    right
    exact ⟨gapTarget, List.mem_cons_self .., Instruction.mem_visitFrom.2 (.inl rfl)⟩
  have hstays : ∀ rule ∈ eraRules ++ documentRules, rule.shiftsOntoGap 0x2A = false := by decide
  obtain ⟨i, hi⟩ : ∃ i, i ∈ (gapAssignment.decode (overriddenDialect documentRules)).instructions :=
    ⟨_, by rw [hbody]; exact Array.mem_singleton.2 rfl⟩
  exact ⟨hdocuments, ⟨i, hi, hvisit i hi⟩,
    decode_unknown gapAssignment hdocuments rfl hi (hvisit i hi) rfl fun rule hrule => hstays rule hrule.mem⟩

/-- A shift onto a gap shows another byte than the blob has. -/
theorem decode_unknown_fails_of_shift :
    [({ first := 0x2A, shift := some 1 } : RuleEntry)].mapM RuleEntry.rule = .ok [⟨0x2A, 0x2A, {}, .shift 1⟩] ∧
      (Source.decode ⟨"F", [0x2A], 1⟩ (overriddenDialect [⟨0x2A, 0x2A, {}, .shift 1⟩])).instructions =
        #[⟨⟨0x2A, none⟩, .unknown 0x2B, 0, 1, 0, 1, .unknown⟩] ∧
      ∀ words scope, Instruction.expression words ⟨⟨0x2A, none⟩, .unknown 0x2B, 0, 1, 0, 1, .unknown⟩ scope =
        pure "/*@Unknown 0x2B*/" := by
  refine ⟨rfl, rfl, fun words scope => ?_⟩
  rw [Instruction.expression]
  rfl

end ScriptBytecode
