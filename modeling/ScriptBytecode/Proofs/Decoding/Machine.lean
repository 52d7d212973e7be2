/-
Module: ScriptBytecode.Proofs.Decoding.Machine
Purpose: The decoder as a machine that counts levels and keeps a log. The decoder of instructions is given the levels
  that are left; the machine has a register for the depth, compares it with a limit that may be absent, and raises and
  lowers it around the operands of an instruction. Its log names every moment of a run, also of one that fails. The
  recursion needs no limit, since every level takes a byte, and with the limit of the decoder the machine is the
  decoder.
Main exports: Registers, Moment, Machine, Machine.device, Machine.instruction, Machine.read, Machine.read_eq,
  Machine.Respects, Machine.follows_read
-/
import ScriptBytecode.Proofs.Decoding.Devices

namespace ScriptBytecode

variable {α β : Type}

/-- What a machine keeps while it runs. -/
structure Registers where
  place : Place
  /-- Number of instructions around what is being read. -/
  depth : Nat

/-- What happens in a run. -/
inductive Moment where
  /-- An instruction starts at a place. -/
  | enters (depth : Nat) (place : Place)
  /-- Something has been read, or could not be read to its end, and the place has changed. -/
  | reads (before after : Place)
  /-- The sizes of an instruction are taken as differences of two places. -/
  | measures (start stop : Place)

/-- How a run ends, and what happened before. -/
structure Execution (α : Type) where
  result : EStateM.Result DecodeError Registers α
  log : List Moment

/-- A decoder with registers and a log. -/
def Machine (α : Type) : Type := Registers → Execution α

namespace Machine

/-- One run after another; a failure ends both. -/
def andThen (m : Machine α) (rest : α → Machine β) : Machine β := fun registers =>
  match (m registers).result with
  | .ok value next => ⟨(rest value next).result, (m registers).log ++ (rest value next).log⟩
  | .error e next => ⟨.error e next, (m registers).log⟩

instance : Monad Machine where
  pure value registers := ⟨.ok value registers, []⟩
  bind := andThen

section Sequences

variable {m : Machine α} {rest : α → Machine β} {registers next : Registers}

theorem bind_of_ok {value : α} (h : (m registers).result = .ok value next) :
    (m >>= rest) registers =
      ⟨(rest value next).result, (m registers).log ++ (rest value next).log⟩ := by
  show andThen m rest registers = _
  unfold andThen
  rw [h]

theorem bind_of_error {e : DecodeError} (h : (m registers).result = .error e next) :
    (m >>= rest) registers = ⟨.error e next, (m registers).log⟩ := by
  show andThen m rest registers = _
  unfold andThen
  rw [h]

end Sequences

/-- The outcome of a decoder, with a depth beside the place. -/
def withDepth (depth : Nat) : EStateM.Result DecodeError Place α → EStateM.Result DecodeError Registers α
  | .ok value place => .ok value ⟨place, depth⟩
  | .error e place => .error e ⟨place, depth⟩

theorem withDepth_eq_ok {depth : Nat} {result : EStateM.Result DecodeError Place α} {value : α} {next : Registers}
    (h : withDepth depth result = .ok value next) : result = .ok value next.place := by
  cases result with
  | ok value' place =>
      cases h
      rfl
  | error e place => cases h

theorem withDepth_eq_error {depth : Nat} {result : EStateM.Result DecodeError Place α} {e : DecodeError}
    {next : Registers} (h : withDepth depth result = .error e next) : result = .error e next.place := by
  cases result with
  | ok value place => cases h
  | error e' place =>
      cases h
      rfl

/-- Reads move the place and leave the depth as it is. -/
def device : Device Machine where
  read reader width registers :=
    ⟨withDepth registers.depth (Decoder.lift reader width registers.place),
      [.reads registers.place (stopOf (Decoder.lift reader width) registers.place)]⟩
  place registers := ⟨.ok registers.place registers, []⟩
  exhausted registers := ⟨.error (.truncated registers.place.input.offset 1) registers, []⟩

/-- Starts an instruction, unless the limit has been reached. -/
def enter (limit : Option Nat) : Machine Unit := fun registers =>
  ⟨if limit.any (· ≤ registers.depth) then .error (.nestingTooDeep registers.place.input.offset) registers
    else .ok () registers,
    [.enters registers.depth registers.place]⟩

/-- One level up, whatever the outcome. -/
def surface : EStateM.Result DecodeError Registers α → EStateM.Result DecodeError Registers α
  | .ok value registers => .ok value { registers with depth := registers.depth - 1 }
  | .error e registers => .error e { registers with depth := registers.depth - 1 }

theorem surface_eq_ok {result : EStateM.Result DecodeError Registers α} {value : α} {next : Registers}
    (h : surface result = .ok value next) : ∃ inner, result = .ok value inner ∧ inner.place = next.place := by
  cases result with
  | ok value' inner =>
      cases h
      exact ⟨inner, rfl, rfl⟩
  | error e inner => cases h

/-- Runs one level further down, and comes up again. -/
def deeper (m : Machine α) : Machine α := fun registers =>
  let run := m { registers with depth := registers.depth + 1 }
  ⟨surface run.result, run.log⟩

/-- Gives the places at which a run starts and stops beside its value. -/
def measured (m : Machine α) : Machine (α × Place × Place) := fun registers =>
  match (m registers).result with
  | .ok value next =>
    ⟨.ok (value, registers.place, next.place) next, (m registers).log ++ [.measures registers.place next.place]⟩
  | .error e next => ⟨.error e next, (m registers).log⟩

/-- Code and token of an instruction. -/
def parts (dialect : Dialect) (nested : Machine Instruction) : Machine (Code × Token Instruction) := do
  let code ← device.code
  let opcode := dialect.table.resolve dialect.natives code
  let token ← deeper (device.layout dialect nested (layout dialect.format opcode))
  return (code, token)

/-- The instruction with given parts between two places. -/
def assemble (dialect : Dialect) (read : (Code × Token Instruction) × Place × Place) : Instruction where
  code := read.1.1
  opcode := dialect.table.resolve dialect.natives read.1.1
  token := read.1.2
  position := read.2.1.position
  size := read.2.2.position - read.2.1.position
  storagePosition := read.2.1.input.offset
  storageSize := read.2.2.input.offset - read.2.1.input.offset

/-- One instruction; those nested in it are read by `nested`. -/
def instruction (dialect : Dialect) (limit : Option Nat) (nested : Machine Instruction) : Machine Instruction := do
  enter limit
  let read ← measured (parts dialect nested)
  return assemble dialect read

/-- One instruction and everything it nests, at most `bound` levels down. -/
def readWithin (dialect : Dialect) (limit : Option Nat) : (bound : Nat) → Machine Instruction
  | 0 => device.exhausted
  | bound + 1 => instruction dialect limit (readWithin dialect limit bound)

/-- One instruction and everything it nests. Every level takes a byte, so one level more than there are bytes left is
    enough. -/
def read (dialect : Dialect) (limit : Option Nat) : Machine Instruction := fun registers =>
  readWithin dialect limit (registers.place.input.rest.length + 1) registers

/-!
### Relations between runs
-/

/-- A relation between machines with two limits that everything machines are made of respects. -/
structure Respects (format : Format) (limit limit' : Option Nat)
    (Rel : ∀ {α : Type}, Machine α → Machine α → Prop) : Prop extends Device.Relates format device device Rel where
  enter : Rel (enter limit) (enter limit')
  deeper : ∀ {α : Type} {m m' : Machine α}, Rel m m' → Rel (deeper m) (deeper m')
  measured : ∀ {α : Type} {m m' : Machine α}, Rel m m' → Rel (measured m) (measured m')

namespace Respects

variable {dialect : Dialect} {limit limit' : Option Nat} {Rel : ∀ {α : Type}, Machine α → Machine α → Prop}

theorem instruction (h : Respects dialect.format limit limit' Rel) {nested nested' : Machine Instruction}
    (hnested : Rel nested nested') :
    Rel (Machine.instruction dialect limit nested) (Machine.instruction dialect limit' nested') := by
  refine h.bind h.enter fun _ => h.bind (h.measured ?_) fun _ => h.pure _
  exact h.bind h.code fun _ => h.bind (h.deeper (h.layout hnested _)) fun _ => h.pure _

/-- Related machines read instructions in a related way. -/
theorem readWithin (h : Respects dialect.format limit limit' Rel) (bound : Nat) :
    Rel (Machine.readWithin dialect limit bound) (Machine.readWithin dialect limit' bound) := by
  induction bound with
  | zero => exact h.exhausted
  | succ bound ih => exact h.instruction ih

end Respects

/-!
### Machines and decoders
-/

/-- At the given depth the machine does what the decoder does, and it comes back to that depth. -/
def Follows (depth : Nat) (m : Machine α) (decoder : Decoder α) : Prop :=
  ∀ place, (m ⟨place, depth⟩).result = withDepth depth (decoder place)

namespace Follows

variable {depth : Nat}

theorem bind {m : Machine α} {decoder : Decoder α} {rest : α → Machine β} {rest' : α → Decoder β}
    (hm : Follows depth m decoder) (hrest : ∀ value, Follows depth (rest value) (rest' value)) :
    Follows depth (m >>= rest) (decoder >>= rest') := by
  intro place
  have hfirst := hm place
  rw [bind_apply]
  cases hread : decoder place with
  | ok value next =>
      rw [hread] at hfirst
      rw [bind_of_ok hfirst]
      exact hrest value next
  | error e next =>
      rw [hread] at hfirst
      rw [bind_of_error hfirst]
      rfl

/-- The device of the machine follows that of the decoder. -/
theorem relates (format : Format) (depth : Nat) : Device.Relates format device Device.decoder (Follows depth) where
  pure _ _ := rfl
  bind := bind
  read _ _ := rfl
  place _ := rfl
  exhausted _ := rfl

/-- Operands are read one level further down; behind them the machine is where it was. -/
theorem deeper {m : Machine α} {decoder : Decoder α} (h : Follows (depth + 1) m decoder) :
    Follows depth (deeper m) decoder := by
  intro place
  show surface (m ⟨place, depth + 1⟩).result = _
  rw [h place]
  cases decoder place <;> rfl

theorem parts (dialect : Dialect) {nested : Machine Instruction} {decoder : Decoder Instruction}
    (h : Follows (depth + 1) nested decoder) :
    Follows depth (parts dialect nested) (do
      let code ← Decoder.code
      let token ← (layout dialect.format (dialect.table.resolve dialect.natives code)).decode dialect decoder
      return (code, token)) := by
  have hR := relates dialect.format
  refine (hR depth).bind (hR depth).code fun code => (hR depth).bind (deeper ?_) fun _ => (hR depth).pure _
  rw [← Device.decoder_layout]
  exact (hR (depth + 1)).layout h _

theorem measured {m : Machine α} {decoder : Decoder α} (h : Follows depth m decoder) :
    Follows depth (measured m) (do
      let start ← get
      let value ← decoder
      let stop ← get
      return (value, start, stop)) := by
  intro place
  show _ = withDepth depth ((decoder >>= _) place)
  unfold Machine.measured
  rw [bind_apply, h place]
  cases decoder place <;> rfl

theorem enter {limit : Nat} (hlimit : depth < limit) : Follows depth (enter (some limit)) (pure ()) := by
  intro place
  have hfree : (some limit).any (· ≤ depth) = false := decide_eq_false (Nat.not_le.2 hlimit)
  unfold Machine.enter
  rw [hfree]
  rfl

/-- Below the limit an instruction is read as the decoder reads it, if nested instructions are. -/
theorem instruction {dialect : Dialect} {limit levels : Nat} {nested : Machine Instruction} (hlimit : depth < limit)
    (h : Follows (depth + 1) nested (readInstruction dialect levels)) :
    Follows depth (instruction dialect (some limit) nested) (readInstruction dialect (levels + 1)) := by
  have hR := relates dialect.format depth
  have hfollows := hR.bind (enter hlimit) fun _ => hR.bind (measured (parts dialect h)) fun read =>
    hR.pure (assemble dialect read)
  simp only [bind_assoc, pure_bind] at hfollows
  exact hfollows

end Follows

end Machine

/-!
### Recursion without a limit
-/

/-- Number of bytes that have not been read. -/
def Registers.left (registers : Registers) : Nat := registers.place.input.rest.length

namespace Machine

/-- With fewer than `bound` bytes left the two machines are the same, and no byte comes back. -/
def Agree (bound : Nat) (m m' : Machine α) : Prop :=
  ∀ registers, registers.left < bound → m registers = m' registers ∧
    ∀ value next, (m registers).result = .ok value next → next.left ≤ registers.left

namespace Agree

variable {bound fewer : Nat}

/-- The second part of a sequence has only to agree on the bytes that the first part leaves. -/
theorem sequence {m m' : Machine α} {rest rest' : α → Machine β} (hm : Agree bound m m')
    (hleft : ∀ registers value next, registers.left < bound → (m registers).result = .ok value next →
      next.left < fewer)
    (hrest : ∀ value, Agree fewer (rest value) (rest' value)) : Agree bound (m >>= rest) (m' >>= rest') := by
  intro registers hbytes
  obtain ⟨hfirst, hless⟩ := hm registers hbytes
  cases hresult : (m registers).result with
  | ok value next =>
      obtain ⟨hsecond, hlast⟩ := hrest value next (hleft registers value next hbytes hresult)
      have hnext := hless value next hresult
      rw [bind_of_ok hresult, bind_of_ok (hfirst ▸ hresult), ← hfirst, ← hsecond]
      exact ⟨rfl, fun last final hfinal => Nat.le_trans (hlast last final hfinal) hnext⟩
  | error e next =>
      rw [bind_of_error hresult, bind_of_error (hfirst ▸ hresult), ← hfirst]
      exact ⟨rfl, fun last final hfinal => by cases hfinal⟩

theorem bind {m m' : Machine α} {rest rest' : α → Machine β} (hm : Agree bound m m')
    (hrest : ∀ value, Agree bound (rest value) (rest' value)) : Agree bound (m >>= rest) (m' >>= rest') :=
  hm.sequence (fun registers value next hbytes h => Nat.lt_of_le_of_lt ((hm registers hbytes).2 value next h) hbytes)
    hrest

/-- A machine agrees with itself if it does what a decoder does that goes forward. -/
theorem of_follows {m : Machine α} {decoder : Decoder α} (hm : ∀ depth, Follows depth m decoder)
    (hmoves : Moves Place.Reaches decoder) (bound : Nat) : Agree bound m m := by
  intro registers _
  refine ⟨rfl, fun value next h => ?_⟩
  have hreaches := hmoves.of_ok (withDepth_eq_ok ((hm registers.depth registers.place).symm.trans h))
  have hoffset := hreaches.input.offset_le
  have hlength := hreaches.input.offset_add_length
  unfold Registers.left
  omega

theorem relates (format : Format) (bound : Nat) : Device.Relates format device device (Agree bound) where
  pure value := of_follows (fun depth => (Follows.relates format depth).pure value) Place.Reaches.preorderly.refl bound
  bind := bind
  read h := of_follows (fun depth => (Follows.relates format depth).read h)
    ((Place.Reaches.primitiveMoves format).primitive h) bound
  place := of_follows (fun depth => (Follows.relates format depth).place) Place.Reaches.preorderly.refl bound
  exhausted := of_follows (fun depth => (Follows.relates format depth).exhausted) Place.Reaches.preorderly.refl bound

theorem deeper {m m' : Machine α} (h : Agree bound m m') : Agree bound (deeper m) (deeper m') := by
  intro registers hbytes
  obtain ⟨hsame, hless⟩ := h ⟨registers.place, registers.depth + 1⟩ hbytes
  unfold Machine.deeper
  rw [← hsame]
  refine ⟨rfl, fun value next hok => ?_⟩
  obtain ⟨inner, hinner, hplace⟩ := surface_eq_ok hok
  have hfewer := hless value inner hinner
  unfold Registers.left at hfewer ⊢
  rwa [hplace] at hfewer

theorem measured {m m' : Machine α} (h : Agree bound m m') : Agree bound (measured m) (measured m') := by
  intro registers hbytes
  obtain ⟨hsame, hless⟩ := h registers hbytes
  unfold Machine.measured
  rw [← hsame]
  refine ⟨rfl, fun value next hok => ?_⟩
  cases hresult : (m registers).result with
  | ok value' inner =>
      rw [hresult] at hok
      cases hok
      exact hless value' next hresult
  | error e inner =>
      rw [hresult] at hok
      cases hok

theorem enter (limit : Option Nat) : Agree bound (enter limit) (enter limit) := by
  intro registers _
  refine ⟨rfl, fun value next hok => ?_⟩
  unfold Machine.enter at hok
  dsimp only at hok
  split at hok
  · cases hok
  · cases hok
    exact Nat.le_refl _

/-- The code of an instruction takes a byte, so behind it one byte less has to agree. -/
theorem instruction {dialect : Dialect} (limit : Option Nat) {nested nested' : Machine Instruction}
    (h : Agree bound nested nested') :
    Agree (bound + 1) (instruction dialect limit nested) (instruction dialect limit nested') := by
  have hR := relates dialect.format
  refine (enter limit).bind fun _ => (measured ?_).bind fun _ => (hR _).pure _
  refine (hR _).code.sequence ?_ fun code => (deeper ((hR bound).layout h _)).bind fun _ => (hR _).pure _
  -- What is left to show is that the code takes a byte.
  intro registers code next hbytes hcode
  have hfollows := (Follows.relates dialect.format registers.depth).code registers.place
  have hread : Decoder.code registers.place = .ok code next.place := withDepth_eq_ok (hfollows.symm.trans hcode)
  have hoffset := (Decoder.code_ok hread).2
  have hlength := ((Place.Reaches.primitiveMoves dialect.format).code.of_ok hread).input.offset_add_length
  unfold Registers.left at hbytes ⊢
  omega

end Agree

theorem agree_readWithin (dialect : Dialect) (limit : Option Nat) {bound bound' : Nat} (h : bound ≤ bound') :
    Agree bound (readWithin dialect limit bound) (readWithin dialect limit bound') := by
  induction bound generalizing bound' with
  | zero => exact fun registers hbytes => absurd hbytes (Nat.not_lt_zero _)
  | succ bound ih =>
      obtain ⟨bound', rfl⟩ := Nat.exists_eq_add_of_lt h
      exact (ih (Nat.le_add_right ..)).instruction limit

/-- The bound of the recursion is never reached: an instruction is read by reading those nested in it the same way. -/
theorem read_eq (dialect : Dialect) (limit : Option Nat) :
    read dialect limit = instruction dialect limit (read dialect limit) := by
  funext registers
  -- Nested instructions have fewer bytes left, and with those any larger bound does the same.
  have hnested : Agree registers.left (readWithin dialect limit registers.left) (read dialect limit) := by
    intro inner hbytes
    obtain ⟨hsame, hless⟩ := agree_readWithin dialect limit hbytes inner (Nat.lt_succ_self _)
    rw [← hsame]
    exact ⟨rfl, hless⟩
  exact (hnested.instruction limit registers (Nat.lt_succ_self _)).1

/-- At every depth the machine with a limit is the decoder with the levels that are left, and behind an instruction the
    depth is what it was before, whether it could be read or not. The induction is on the levels. -/
theorem follows_read (dialect : Dialect) (limit depth : Nat) :
    Follows depth (read dialect (some limit)) (readInstruction dialect (limit - depth)) := by
  induction hlevels : limit - depth generalizing depth with
  | zero =>
      intro place
      have hreached : (some limit).any (· ≤ depth) = true := decide_eq_true (Nat.le_of_sub_eq_zero hlevels)
      have henter : (enter (some limit) ⟨place, depth⟩).result =
          .error (.nestingTooDeep place.input.offset) ⟨place, depth⟩ := if_pos hreached
      -- The limit is reached before a byte is read.
      rw [read_eq, instruction, bind_of_error henter]
      rfl
  | succ levels ih =>
      rw [read_eq]
      exact Follows.instruction (by omega) (ih (depth + 1) (by omega))

end Machine

end ScriptBytecode
