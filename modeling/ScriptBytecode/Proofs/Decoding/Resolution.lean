/-
Module: ScriptBytecode.Proofs.Decoding.Resolution
Purpose: What a code stands for is what its rules say. Entering rules one after the other leaves the last word to the
  last rule that applies to a code, and codes past the table are out of reach for every rule. Main statement: the table
  of a format is the reading of its rules, whatever the overrides.
Main exports: Decides, OpcodeTable.overwrite, exists_decides, lookup_of_decides, ofRules_decided
-/
import ScriptBytecode.OpcodeTable

namespace ScriptBytecode

/-- The rule decides about a code in a format: it is the last of the rules that applies to it. -/
def Decides (rules : List Rule) (format : Format) (code : UInt8) (rule : Rule) : Prop :=
  ∃ before after, rules = before ++ rule :: after ∧ rule.applies code format = true ∧
    ∀ later ∈ after, later.applies code format = false

theorem Decides.mem {rules : List Rule} {format : Format} {code : UInt8} {rule : Rule}
    (h : Decides rules format code rule) : rule ∈ rules := by
  obtain ⟨before, after, rfl, -⟩ := h
  simp

/-- If any rule applies to a code, some rule decides about it. -/
theorem exists_decides {rules : List Rule} {format : Format} {code : UInt8}
    (h : ∃ rule ∈ rules, rule.applies code format = true) : ∃ rule, Decides rules format code rule := by
  induction rules with
  | nil =>
      obtain ⟨rule, hrule, -⟩ := h
      cases hrule
  | cons first rest ih =>
      by_cases hrest : ∃ rule ∈ rest, rule.applies code format = true
      · obtain ⟨rule, before, after, rfl, hdecides⟩ := ih hrest
        exact ⟨rule, first :: before, after, rfl, hdecides⟩
      · obtain ⟨rule, hrule, happlies⟩ := h
        rcases List.mem_cons.1 hrule with rfl | hrule
        · refine ⟨rule, [], rest, rfl, happlies, fun later hlater => ?_⟩
          rw [Bool.eq_false_iff]
          exact fun hlate => hrest ⟨later, hlater, hlate⟩
        · exact absurd ⟨rule, hrule, happlies⟩ hrest

namespace OpcodeTable

/-!
### Entering rules
-/

theorem getElem_enter (entries : Vector Opcode firstExtendedNative) (rule : Rule) {code : UInt8}
    (h : code.toNat < firstExtendedNative) :
    (enter entries rule)[code.toNat] = if rule.covers code then rule.apply code else entries[code.toNat] := by
  simp [enter]

/-- The codes of the rule's range are overwritten in turn, as far as the table goes. -/
def overwrite (entries : Vector Opcode firstExtendedNative) (rule : Rule) : Vector Opcode firstExtendedNative :=
  let last := min rule.last.toNat (firstExtendedNative - 1)
  (List.range' rule.first.toNat (last + 1 - rule.first.toNat)).foldl
    (fun entries code => entries.setIfInBounds code (rule.apply (UInt8.ofNat code))) entries

theorem getElem_foldl_set (kind : Nat → Opcode) (codes : List Nat) (entries : Vector Opcode firstExtendedNative)
    {code : Nat} (h : code < firstExtendedNative) :
    (codes.foldl (fun entries code => entries.setIfInBounds code (kind code)) entries)[code] =
      if code ∈ codes then kind code else entries[code] := by
  induction codes generalizing entries with
  | nil => rfl
  | cons first rest ih =>
      rw [List.foldl_cons, ih]
      by_cases hfirst : first = code
      · subst hfirst
        simp
      · by_cases hrest : code ∈ rest <;> simp [hrest, hfirst, Ne.symm hfirst]

/-- Entering a rule overwrites its range, which may be empty or reach past the table. -/
theorem enter_eq_overwrite (entries : Vector Opcode firstExtendedNative) (rule : Rule) :
    enter entries rule = overwrite entries rule := by
  ext code hcode
  have hsmall : code < 256 := Nat.lt_trans hcode (by decide)
  have hcovers : rule.covers (UInt8.ofNat code) = true ↔
      code ∈ List.range' rule.first.toNat (min rule.last.toNat (firstExtendedNative - 1) + 1 - rule.first.toNat) := by
    simp only [Rule.covers, Bool.and_eq_true, decide_eq_true_eq, UInt8.le_iff_toNat_le, UInt8.toNat_ofNat',
      List.mem_range'_1]
    omega
  rw [overwrite, getElem_foldl_set (fun code => rule.apply (UInt8.ofNat code))]
  simp only [enter, Vector.getElem_ofFn, hcovers]
  rfl

/-- Rules that do not cover a code leave its entry as it is. -/
theorem getElem_foldl_enter {rules : List Rule} {code : UInt8} (hidle : ∀ rule ∈ rules, rule.covers code = false)
    (entries : Vector Opcode firstExtendedNative) (h : code.toNat < firstExtendedNative) :
    (rules.foldl enter entries)[code.toNat] = entries[code.toNat] := by
  induction rules generalizing entries with
  | nil => rfl
  | cons rule rest ih =>
      rw [List.foldl_cons, ih fun later hlater => hidle later (List.mem_cons_of_mem _ hlater), getElem_enter,
        hidle rule (List.mem_cons_self ..)]
      rfl

/-!
### Tables
-/

theorem lookup_of_lt (table : OpcodeTable) {code : UInt8} (h : code.toNat < firstExtendedNative) :
    table.lookup code = table.entries[code.toNat] :=
  dif_pos h

/-- A code stands for what the rule that decides about it makes of it. -/
theorem lookup_of_decides {format : Format} {overrides : List Rule} {code : UInt8} {rule : Rule}
    (h : code.toNat < firstExtendedNative) (hdecides : Decides (eraRules ++ overrides) format code rule) :
    (ofRules format overrides).lookup code = rule.apply code := by
  obtain ⟨before, after, hrules, happlies, hafter⟩ := hdecides
  obtain ⟨hcovers, hadmits⟩ := (Bool.and_eq_true ..).mp happlies
  have hidle : ∀ later ∈ after.filter (·.window.admits format), later.covers code = false := by
    intro later hlater
    obtain ⟨hmem, hwindow⟩ := List.mem_filter.1 hlater
    have happlies := hafter later hmem
    rwa [Rule.applies, hwindow, Bool.and_true] at happlies
  have hfilter : (rule :: after).filter (·.window.admits format) = rule :: after.filter (·.window.admits format) :=
    List.filter_cons_of_pos hadmits
  rw [lookup_of_lt _ h, ofRules]
  simp only [hrules, List.filter_append, hfilter, List.foldl_append, List.foldl_cons]
  rw [getElem_foldl_enter hidle _ h, getElem_enter _ _ h, if_pos hcovers]

/-- The first era rule has a say about every code of the table, so one of the rules decides about it. -/
theorem exists_decides_of_lt {code : UInt8} (h : code.toNat < firstExtendedNative) (format : Format)
    (overrides : List Rule) : ∃ rule, Decides (eraRules ++ overrides) format code rule := by
  apply exists_decides
  refine ⟨⟨0x00, 0x5F, .any, .canonical⟩, by simp [eraRules], ?_⟩
  have hlast : code ≤ 0x5F := UInt8.le_iff_toNat_le.2 (Nat.le_of_lt_succ h)
  simp [Rule.applies, Rule.covers, Window.admits, Window.any, hlast]

/-- A rule has no say about native calls. -/
theorem resolve_of_le {format : Format} {natives : NativeLookup} {code : Code}
    (h : firstExtendedNative ≤ code.first.toNat) (overrides others : List Rule) :
    (ofRules format overrides).resolve natives code = (ofRules format others).resolve natives code := by
  rw [resolve, resolve, if_neg (Nat.not_lt.2 h), if_neg (Nat.not_lt.2 h)]

/-- The table that the rules of a format leave, entered one after the other, is their reading: about every code of the
    table one rule decides, the last one that applies, and the code stands for what this rule makes of it. What lies
    past the table does not depend on the overrides. -/
theorem ofRules_decided (format : Format) (overrides : List Rule) (natives : NativeLookup) :
    (ofRules format overrides).entries =
        ((eraRules ++ overrides).filter (·.window.admits format)).foldl overwrite blank ∧
      (∀ code : UInt8, code.toNat < firstExtendedNative →
        (∃ rule, Decides (eraRules ++ overrides) format code rule) ∧
          ∀ rule, Decides (eraRules ++ overrides) format code rule →
            (ofRules format overrides).lookup code = rule.apply code) ∧
      ∀ code : Code, firstExtendedNative ≤ code.first.toNat → ∀ others : List Rule,
        (ofRules format overrides).lookup code.first = (ofRules format others).lookup code.first ∧
          (ofRules format overrides).resolve natives code = (ofRules format others).resolve natives code := by
  refine ⟨?_, ?_, ?_⟩
  · have henter : enter = overwrite := funext fun entries => funext fun rule => enter_eq_overwrite entries rule
    rw [ofRules, henter]
  · intro code hcode
    exact ⟨exists_decides_of_lt hcode format overrides, fun rule => lookup_of_decides hcode⟩
  · intro code hcode others
    have hpast := Nat.not_lt.2 hcode
    constructor
    · rw [lookup, lookup, dif_neg hpast, dif_neg hpast]
    · exact resolve_of_le hcode overrides others

/-- Rules of a branch: one reaches past the table, one has an empty range, and one overrides a part of the first. -/
def branchRules : List Rule := [
  ⟨0x50, 0xFF, .any, .kind .debugInfo⟩,
  ⟨0x5B, 0x10, .any, .unused⟩,
  ⟨0x5A, 0x5B, { licensee := some 42 }, .shift (-1)⟩]

theorem ofRules_decided_branchRules :
    Decides (eraRules ++ branchRules) ⟨512, 42⟩ 0x5B ⟨0x5A, 0x5B, { licensee := some 42 }, .shift (-1)⟩ ∧
      (ofRules ⟨512, 42⟩ branchRules).lookup 0x5B = .filterEditorOnly ∧
      Decides (eraRules ++ branchRules) ⟨512, 42⟩ 0x5C ⟨0x50, 0xFF, .any, .kind .debugInfo⟩ ∧
      (ofRules ⟨512, 42⟩ branchRules).lookup 0x5C = .debugInfo ∧
      (ofRules ⟨512, 42⟩ branchRules).resolve .empty ⟨0x61, none⟩ =
        (ofFormat ⟨512, 42⟩).resolve .empty ⟨0x61, none⟩ := by
  obtain ⟨-, hplain, hpast⟩ := ofRules_decided ⟨512, 42⟩ branchRules .empty
  have hshift : Decides (eraRules ++ branchRules) ⟨512, 42⟩ 0x5B
      ⟨0x5A, 0x5B, { licensee := some 42 }, .shift (-1)⟩ :=
    ⟨eraRules ++ branchRules.take 2, [], rfl, rfl, nofun⟩
  have hdebug : Decides (eraRules ++ branchRules) ⟨512, 42⟩ 0x5C ⟨0x50, 0xFF, .any, .kind .debugInfo⟩ :=
    ⟨eraRules, branchRules.drop 1, rfl, rfl, by decide⟩
  exact ⟨hshift, (hplain 0x5B (by decide)).2 _ hshift, hdebug, (hplain 0x5C (by decide)).2 _ hdebug,
    (hpast ⟨0x61, none⟩ (by decide) []).2⟩

end OpcodeTable

end ScriptBytecode
