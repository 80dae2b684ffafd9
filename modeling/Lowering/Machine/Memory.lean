import Lowering.Machine.Scalar
/-!
# One flat array of bytes

The first bytes are never handed out, so no address that is handed out is near zero. Memory only grows; the bytes of
an allocation start out as zero.
-/

namespace Lowering

/-- The contents of memory. -/
structure Memory where
  bytes : ByteArray

namespace Memory

/-- The addresses below this one are out of bounds. -/
def guard : Nat := 8

/-- Memory may not grow beyond this size. -/
def limit : Nat := 0x1000000

def grow (m : Memory) : (count : Nat) → Memory
  | 0 => m
  | count + 1 => grow ⟨m.bytes.push 0⟩ count

def empty : Memory := grow ⟨.empty⟩ guard

instance : Inhabited Memory := ⟨empty⟩

/-- The first address that is not allocated. -/
def size (m : Memory) : Nat := m.bytes.size

/-- A size or an address that has to fit a word. -/
def fit (n : Nat) : Except EvalError Nat :=
  if n < 0x10000000000000000 then .ok n else .error .trap

/-- Checks that the bytes from `address` on are allocated. -/
def check (m : Memory) (address : UInt64) (count : Nat) : Except EvalError Unit := do
  if address.toNat < guard then
    throw (.outOfBounds address count)
  let stop ← fit (address.toNat + count)
  if m.size < stop then
    throw (.outOfBounds address count)

def byteAt (m : Memory) (address : Nat) : UInt8 :=
  if h : address < m.bytes.size then m.bytes[address] else 0

def slice (m : Memory) : (start count : Nat) → List UInt8
  | _, 0 => []
  | start, count + 1 => m.byteAt start :: slice m (start + 1) count

def setByte (m : Memory) (address : Nat) (b : UInt8) : Memory :=
  if h : address < m.bytes.size then ⟨m.bytes.set address b h⟩ else m

def patch (m : Memory) (start : Nat) : List UInt8 → Memory
  | [] => m
  | b :: rest => patch (m.setByte start b) (start + 1) rest

/-! ### What is where

`size` and `byteAt` say all there is to know about memory. -/

@[simp] theorem size_push (m : Memory) (b : UInt8) : (⟨m.bytes.push b⟩ : Memory).size = m.size + 1 :=
  Array.size_push b

@[simp] theorem size_grow (m : Memory) (count : Nat) : (m.grow count).size = m.size + count := by
  induction count generalizing m with
  | zero => rfl
  | succ count ih => rw [grow, ih, size_push]; omega

@[simp] theorem size_setByte (m : Memory) (address : Nat) (b : UInt8) : (m.setByte address b).size = m.size := by
  unfold setByte
  split
  · exact Array.size_set ..
  · rfl

@[simp] theorem size_patch (m : Memory) (start : Nat) (bytes : List UInt8) : (m.patch start bytes).size = m.size := by
  induction bytes generalizing m start with
  | nil => rfl
  | cons b rest ih => simp [patch, ih]

@[simp] theorem length_slice (m : Memory) (start count : Nat) : (m.slice start count).length = count := by
  induction count generalizing start with
  | zero => rfl
  | succ count ih => simp [slice, ih]

/-- Memory as an array of bytes. -/
theorem byteAt_eq (m : Memory) (address : Nat) : m.byteAt address = m.bytes.data[address]?.getD 0 := by
  unfold byteAt
  split
  · next h => exact (by simp [Array.getElem?_eq_getElem (show address < m.bytes.data.size from h)]; rfl)
  · next h => exact (by simp [Array.getElem?_eq_none (Nat.le_of_not_lt (show ¬ address < m.bytes.data.size from h))])

/-- New bytes are zero, like all bytes that are not there. -/
@[simp] theorem byteAt_grow (m : Memory) (count address : Nat) : (m.grow count).byteAt address = m.byteAt address := by
  induction count generalizing m with
  | zero => rfl
  | succ count ih =>
    rw [grow, ih, byteAt_eq, byteAt_eq]
    show (m.bytes.data.push 0)[address]?.getD 0 = _
    rw [Array.getElem?_push]
    split
    · next h => simp [h]
    · rfl

/-- Setting a byte changes that byte and no other. -/
theorem byteAt_setByte (m : Memory) (address : Nat) (b : UInt8) (i : Nat) :
    (m.setByte address b).byteAt i = if i = address ∧ address < m.size then b else m.byteAt i := by
  unfold setByte
  split
  · next h =>
    rw [byteAt_eq, byteAt_eq]
    show (m.bytes.data.set address b h)[i]?.getD 0 = _
    by_cases e : address = i
    · subst e; simp [size, h]
    · simp [e, Ne.symm e]
  · next h => simp [size, h]

/-- A patch changes the bytes it covers and no others. -/
theorem byteAt_patch (m : Memory) (start : Nat) (bytes : List UInt8) (fits : start + bytes.length ≤ m.size) (i : Nat) :
    (m.patch start bytes).byteAt i =
      if start ≤ i ∧ i < start + bytes.length then bytes.getD (i - start) 0 else m.byteAt i := by
  induction bytes generalizing m start with
  | nil =>
    rw [patch, if_neg]
    simp only [List.length_nil]
    omega
  | cons b rest ih =>
    simp only [List.length_cons] at fits ⊢
    rw [patch, ih _ _ (by simp; omega), byteAt_setByte]
    by_cases e : i = start
    · subst e
      rw [if_neg (by omega), if_pos (by omega)]
      simp
    · by_cases inside : start + 1 ≤ i ∧ i < start + 1 + rest.length
      · rw [if_pos inside, if_pos (by omega), show i - start = (i - (start + 1)) + 1 by omega, List.getD_cons_succ]
      · rw [if_neg inside, if_neg (by simp [e]), if_neg (by omega)]

def read (m : Memory) (address : UInt64) (count : Nat) : Except EvalError (List UInt8) := do
  m.check address count
  return m.slice address.toNat count

end Memory

/-- Steps that may change memory and may fail. What memory was changed to before a failure stays. -/
abbrev Effect := EStateM EvalError Memory

namespace Effect

/-- A step that leaves memory alone. -/
def ofExcept {α : Type} : Except EvalError α → Effect α
  | .ok a => pure a
  | .error e => throw e

instance : MonadLift (Except EvalError) Effect := ⟨ofExcept⟩

def write (address : UInt64) (bytes : List UInt8) : Effect Unit := do
  (← get).check address bytes.length
  modify (·.patch address.toNat bytes)

/-- Allocates fresh bytes, at least one, and gives their address. -/
def allocate (count : Nat) : Effect UInt64 := do
  let address := (← get).size
  let stop ← Memory.fit (address + count)
  if Memory.limit < stop then
    throw .outOfMemory
  modify (·.grow (max count 1))
  return UInt64.ofNat address

/-- Copies bytes; the two ranges may overlap. -/
def copy (destination source : UInt64) (count : Nat) : Effect Unit := do
  let bytes ← (← get).read source count
  write destination bytes

end Effect

end Lowering
