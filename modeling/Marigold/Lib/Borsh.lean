import Marigold.Lib.Bytes

/-!
# Borsh

The borsh wire format, as readers that consume a front part of the input: fixed-width integers are
little-endian, arrays have no length, vectors carry a `u32` count, enumerations a one-byte tag. The format
is canonical: what a reader accepts is what the writer wrote.
-/

namespace Marigold.Lib

/-- A borsh `deserialize`: the value read and the unread bytes, or failure. -/
abbrev Reader (α : Type) := StateT Bytes Option α

namespace Reader

def byte : Reader UInt8
  | [] => none
  | b :: rest => some (b, rest)

/-- A fixed-size array `[u8; n]`. -/
def array (n : Nat) : Reader Bytes := fun bs =>
  if n ≤ bs.length then some (bs.take n, bs.drop n) else none

theorem array_eq_some {n : Nat} {bs front rest : Bytes} :
    array n bs = some (front, rest) ↔ front.length = n ∧ bs = front ++ rest := by
  rw [array]
  split
  next fits =>
    simp only [Option.some_inj, Prod.mk.injEq]
    constructor
    · rintro ⟨rfl, rfl⟩
      exact ⟨List.length_take_of_le fits, (List.take_append_drop n bs).symm⟩
    · rintro ⟨rfl, rfl⟩
      exact ⟨List.take_left, List.drop_left⟩
  next short =>
    refine ⟨(fun none => nomatch none), ?_⟩
    rintro ⟨rfl, rfl⟩
    rw [List.length_append] at short
    omega

theorem byte_eq_some {bs rest : Bytes} {b : UInt8} : byte bs = some (b, rest) ↔ bs = b :: rest := by
  cases bs <;> simp [byte]

def u32 : Reader UInt32 := do return UInt32.ofNat (readLE (← array 4))

def u64 : Reader UInt64 := do return UInt64.ofNat (readLE (← array 8))

def repeated {α : Type} (item : Reader α) : Nat → Reader (List α)
  | 0 => return []
  | n + 1 => do
    let head ← item
    let tail ← repeated item n
    return head :: tail

/-- A `Vec<T>`: its length, then its items. -/
def vec {α : Type} (item : Reader α) : Reader (List α) := do
  let len ← u32
  repeated item len.toNat

/-- `try_from_slice`: the whole input has to be consumed. -/
def tryFromSlice {α : Type} (reader : Reader α) (bs : Bytes) : Option α :=
  match reader.run bs with
  | some (value, []) => some value
  | _ => none

variable {α β : Type} {read : Reader α} {bs rest : Bytes} {b : β}

theorem pure_eq_some {a a' : α} : (pure a : Reader α) bs = some (a', rest) ↔ a = a' ∧ bs = rest := by
  rw [← Prod.mk.injEq]
  exact Option.some_inj

theorem bind_eq_some {later : α → Reader β} : (read >>= later) bs = some (b, rest) ↔
    ∃ a mid, read bs = some (a, mid) ∧ later a mid = some (b, rest) := by
  simp only [Bind.bind, StateT.bind, Option.bind_eq_some_iff, Prod.exists]

theorem map_eq_some {f : α → β} : (do return f (← read) : Reader β) bs = some (b, rest) ↔
    ∃ a, read bs = some (a, rest) ∧ f a = b := by
  simp only [bind_eq_some, pure_eq_some]
  constructor
  · rintro ⟨a, mid, read, rfl, rfl⟩
    exact ⟨a, read, rfl⟩
  · rintro ⟨a, read, rfl⟩
    exact ⟨a, rest, read, rfl, rfl⟩

end Reader

/-- A borsh `serialize`: it fails on a vector that is too long. -/
abbrev Writer (α : Type) := α → Option Bytes

namespace Writer

variable {α : Type}

def u32 : Writer UInt32 := fun v => some (leBytes 4 v.toNat)

def u64 : Writer UInt64 := fun v => some (leBytes 8 v.toNat)

def repeated (item : Writer α) : Writer (List α)
  | [] => some []
  | a :: rest => do return (← item a) ++ (← repeated item rest)

/-- The length has to fit a `u32`. -/
def vec (item : Writer α) : Writer (List α) := fun xs =>
  if xs.length < 2 ^ 32 then do return leBytes 4 xs.length ++ (← repeated item xs) else none

end Writer

/-! ## Inverses -/

/-- The reader returns exactly the values with `P` that were written at the front of the input. -/
def InverseOn {α : Type} (P : α → Prop) (read : Reader α) (write : Writer α) : Prop :=
  ∀ bs a rest, read bs = some (a, rest) ↔ P a ∧ ∃ front, write a = some front ∧ bs = front ++ rest

abbrev Inverse {α : Type} (read : Reader α) (write : Writer α) : Prop := InverseOn (fun _ => True) read write

namespace InverseOn

variable {α β : Type} {P Q : α → Prop} {read : Reader α} {write write' : Writer α}

theorem congr (inverse : InverseOn P read write) (same : ∀ a, P a ↔ Q a) (agree : ∀ a, P a → write a = write' a) :
    InverseOn Q read write' := by
  intro bs a rest
  rw [inverse bs a rest, ← same a]
  exact and_congr_right fun holds => by rw [agree a holds]

theorem failure (never : ∀ a, ¬P a) : InverseOn P (failure : Reader α) write := by
  intro bs a rest
  exact ⟨(fun none => nomatch none), fun this => absurd this.1 (never a)⟩

theorem bind {R : β → Prop} {later : α → Reader β} {write' : Writer β} (first : Inverse read write) (part : β → α)
    (second : ∀ a, InverseOn (fun b => part b = a ∧ R b) (later a) write') :
    InverseOn R (read >>= later) (fun b => do return (← write (part b)) ++ (← write' b)) := by
  intro bs b rest
  simp only [Reader.bind_eq_some, first _ _ _, second _ _ _ _, true_and]
  constructor
  · rintro ⟨a, mid, ⟨front, wrote, rfl⟩, ⟨rfl, holds⟩, back, wrote', rfl⟩
    exact ⟨holds, front ++ back, by simp [wrote, wrote'], by simp⟩
  · rintro ⟨holds, whole, wrote, rfl⟩
    simp only [Option.bind_eq_bind, Option.bind_eq_some_iff, Option.pure_def, Option.some_inj] at wrote
    obtain ⟨front, wrote, back, wrote', rfl⟩ := wrote
    exact ⟨part b, back ++ rest, ⟨front, wrote, by simp⟩, ⟨rfl, holds⟩, back, wrote', rfl⟩

/-- A variant of an enumeration, after its tag. -/
theorem variant {f : α → β} {write' : Writer β} (first : Inverse read write) (wrote : ∀ a, write' (f a) = write a) :
    InverseOn (fun b => ∃ a, f a = b) (do return f (← read)) write' := by
  intro bs b rest
  simp only [Reader.map_eq_some, first _ _ _, true_and]
  constructor
  · rintro ⟨a, written, rfl⟩
    exact ⟨⟨a, rfl⟩, by simpa only [wrote] using written⟩
  · rintro ⟨⟨a, rfl⟩, written⟩
    exact ⟨a, by simpa only [wrote] using written, rfl⟩

theorem map {f : α → β} {R : β → Prop} (first : Inverse read write) (part : β → α) (cancel : ∀ a, part (f a) = a)
    (same : ∀ b, f (part b) = b ↔ R b) : InverseOn R (do return f (← read)) (fun b => write (part b)) := by
  refine (variant first fun a => by rw [cancel]).congr (fun b => ?_) fun _ _ => rfl
  rw [← same]
  refine ⟨?_, fun whole => ⟨part b, whole⟩⟩
  rintro ⟨a, rfl⟩
  rw [cancel]

end InverseOn

namespace Inverse

variable {α : Type}

theorem fixed {width : Nat} {decode : Bytes → α} {encode : α → Bytes} (length : ∀ a, (encode a).length = width)
    (decode_encode : ∀ a, decode (encode a) = a) (encode_decode : ∀ bs, bs.length = width → encode (decode bs) = bs) :
    Inverse (do return decode (← Reader.array width)) (fun a => some (encode a)) := by
  intro bs a rest
  simp only [Reader.map_eq_some, Reader.array_eq_some, true_and, Option.some_inj, exists_eq_left']
  constructor
  · rintro ⟨front, ⟨fits, rfl⟩, rfl⟩
    rw [encode_decode front fits]
  · rintro rfl
    exact ⟨encode a, ⟨length a, rfl⟩, decode_encode a⟩

theorem byte : Inverse Reader.byte (fun b => some [b]) := by
  intro bs b rest
  simp [Reader.byte_eq_some]

theorem u32 : Inverse Reader.u32 Writer.u32 := by
  refine fixed (fun v => leBytes_length ..) (fun v => ?_) fun bs width => ?_
  · have fits : v.toNat < 256 ^ 4 := v.toNat_lt
    rw [readLE_leBytes, Nat.mod_eq_of_lt fits, UInt32.ofNat_toNat]
  · have fits : readLE bs < 2 ^ 32 := by simpa [width] using readLE_lt bs
    rw [UInt32.toNat_ofNat_of_lt' fits, ← width, leBytes_readLE]

theorem u64 : Inverse Reader.u64 Writer.u64 := by
  refine fixed (fun v => leBytes_length ..) (fun v => ?_) fun bs width => ?_
  · have fits : v.toNat < 256 ^ 8 := v.toNat_lt
    rw [readLE_leBytes, Nat.mod_eq_of_lt fits, UInt64.ofNat_toNat]
  · have fits : readLE bs < 2 ^ 64 := by simpa [width] using readLE_lt bs
    rw [UInt64.toNat_ofNat_of_lt' fits, ← width, leBytes_readLE]

variable {item : Reader α} {write : Writer α}

theorem repeated (inverse : Inverse item write) (n : Nat) :
    InverseOn (fun xs => xs.length = n) (Reader.repeated item n) (Writer.repeated write) := by
  induction n with
  | zero =>
    intro bs xs rest
    simp only [Reader.repeated, Reader.pure_eq_some, List.length_eq_zero_iff]
    constructor
    · rintro ⟨rfl, rfl⟩
      exact ⟨rfl, [], rfl, rfl⟩
    · rintro ⟨rfl, front, wrote, rfl⟩
      cases wrote
      exact ⟨rfl, rfl⟩
  | succ n ih =>
    intro bs xs rest
    simp only [Reader.repeated, Reader.bind_eq_some, Reader.pure_eq_some, inverse _ _ _, ih _ _ _, true_and]
    constructor
    · rintro ⟨a, mid, ⟨front, wrote, rfl⟩, tail, last, ⟨rfl, back, wrote', rfl⟩, rfl, rfl⟩
      exact ⟨rfl, front ++ back, by simp [Writer.repeated, wrote, wrote'], by simp⟩
    · rintro ⟨count, whole, wrote, rfl⟩
      cases xs with
      | nil => cases count
      | cons a tail =>
        simp only [Writer.repeated, Option.bind_eq_bind, Option.bind_eq_some_iff, Option.pure_def,
          Option.some_inj] at wrote
        obtain ⟨front, wrote, back, wrote', rfl⟩ := wrote
        exact ⟨a, back ++ rest, ⟨front, wrote, by simp⟩, tail, rest, ⟨by simpa using count, back, wrote', rfl⟩,
          rfl, rfl⟩

theorem vec (inverse : Inverse item write) : Inverse (Reader.vec item) (Writer.vec write) := by
  -- a length that fits is the number that is read
  have fits : ∀ (xs : List α) (len : UInt32), xs.length = len.toNat ↔
      UInt32.ofNat xs.length = len ∧ xs.length < 2 ^ 32 := by
    intro xs len
    constructor
    · intro same
      rw [same]
      exact ⟨UInt32.ofNat_toNat, len.toNat_lt⟩
    · rintro ⟨rfl, short⟩
      exact (UInt32.toNat_ofNat_of_lt' short).symm
  have short : InverseOn (fun xs => xs.length < 2 ^ 32) (Reader.vec item) _ :=
    InverseOn.bind u32 (fun xs => UInt32.ofNat xs.length) fun len =>
      (inverse.repeated len.toNat).congr (fun xs => fits xs len) fun _ _ => rfl
  intro bs xs rest
  rw [short bs xs rest, Writer.vec]
  split
  next few =>
    rw [Writer.u32, UInt32.toNat_ofNat_of_lt' few, true_and, and_iff_right few]
    rfl
  next many =>
    rw [true_and]
    exact ⟨fun this => absurd this.1 many, fun ⟨_, never, _⟩ => nomatch never⟩

theorem tryFromSlice (inverse : Inverse item write) {bs : Bytes} {a : α} :
    Reader.tryFromSlice item bs = some a ↔ write a = some bs := by
  have whole : Reader.tryFromSlice item bs = some a ↔ item bs = some (a, []) := by
    rw [Reader.tryFromSlice, StateT.run]
    split
    next value read => simp [read]
    next other =>
      refine ⟨(fun none => nomatch none), fun read => absurd read (other a)⟩
  rw [whole, inverse bs a []]
  simp

end Inverse

end Marigold.Lib
