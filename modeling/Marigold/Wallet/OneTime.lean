import Mathlib.Algebra.Field.ZMod
import Mathlib.Algebra.Module.Torsion.Field
import Marigold.Core.Outcome
import Marigold.Lib.Bytes

/-!
# One-time payment keys (`wallet/core/src/account/notepool.rs`)

A payer locks notes to a key made from the receiver's share key and a throwaway secret. An x-only key
stands for its point with an even y coordinate, so the receiver turns the share secret around when
its own point is the other one.
-/

namespace Marigold.Wallet

open Lib Outcome

/-- The curve library: a group of order `q` with the encodings of its points and scalars. -/
structure Curve (q : Nat) (P : Type) where
  base : P
  xOnly : P → Bytes
  isOdd : P → Bool
  /-- The point of an x-only key that has an even y coordinate. -/
  liftEven : Bytes → Option P
  serialize : P → Bytes
  pointFromSlice : Bytes → Option P
  secretFromSlice : Bytes → Option (ZMod q)
  secretBytes : ZMod q → Bytes
  scalarFromBeBytes : Bytes → Option (ZMod q)
  sha256 : Bytes → Bytes

/-- `map_err` with the text an error starts with. -/
def orError {α : Type} (text : String) : Option α → Except String α
  | some a => .ok a
  | none => .error text

theorem orError_eq_ok {α : Type} {text : String} {x : Option α} {a : α} : orError text x = .ok a ↔ x = some a := by
  cases x <;> simp [orError]

/-- The neutral point is no public key and zero no secret key. -/
def asKey {α : Type} [Zero α] [DecidableEq α] (a : α) : Option α := if a = 0 then none else some a

section Keys

variable {q : Nat} {P : Type} [AddCommGroup P] [DecidableEq P]

/-- Multiplication by zero is refused. -/
def mulTweak [Module (ZMod q) P] (p : P) (k : ZMod q) : Option P := (asKey k).map (· • p)

variable (C : Curve q P)

def onetimeTweak (sharedX : Bytes) : Except String (ZMod q) :=
  orError "one-time tweak out of range (astronomically unlikely); retry" <| C.scalarFromBeBytes <|
    C.sha256 ("marigold-onetime-v1".toList.map (fun c => UInt8.ofNat c.toNat) ++ sharedX)

/-- The payer's side. -/
def onetimeKeyForShare [Module (ZMod q) P] (sharePk ephemeralSk : Bytes) : Except String (Bytes × Bytes) := do
  let e ← orError "ephemeral key" (C.secretFromSlice ephemeralSk)
  let sPoint ← orError "share key" (C.liftEven sharePk)
  let shared ← orError "ecdh" (mulTweak sPoint e)
  let t ← onetimeTweak C (C.xOnly shared)
  let onetime ← orError "one-time key" (asKey (sPoint + t • C.base))
  return (C.xOnly onetime, C.serialize (e • C.base))

/-- The receiver's side. -/
def onetimeSecretForShare [Module (ZMod q) P] (shareSk ephemeralPk : Bytes) : Except String Bytes := do
  let secret ← orError "share secret" (C.secretFromSlice shareSk)
  let s := if C.isOdd (secret • C.base) then -secret else secret
  let ePub ← orError "ephemeral public key" (C.pointFromSlice ephemeralPk)
  let shared ← orError "ecdh" (mulTweak ePub s)
  let t ← onetimeTweak C (C.xOnly shared)
  let onetime ← orError "one-time secret" (asKey (s + t))
  return C.secretBytes onetime

/-- What the two sides need of the library. Points with one x coordinate are opposite or the same, and
of two opposite ones one has an even y coordinate. -/
structure Curve.Lawful : Prop where
  base : C.base ≠ 0
  secret : ∀ bytes s, C.secretFromSlice bytes = some s → s ≠ 0
  secretBytes : ∀ s, s ≠ 0 → C.secretFromSlice (C.secretBytes s) = some s
  serialize : ∀ p, p ≠ 0 → C.pointFromSlice (C.serialize p) = some p
  xOnly : ∀ p p', p ≠ 0 → C.xOnly p' = C.xOnly p → p' = p ∨ p' = -p
  isOdd : ∀ p, p ≠ 0 → C.isOdd (-p) = !C.isOdd p
  liftEven : ∀ p, p ≠ 0 → ∃ p', C.liftEven (C.xOnly p) = some p' ∧ C.xOnly p' = C.xOnly p ∧ C.isOdd p' = false

variable {C}

omit [DecidableEq P] in
theorem Curve.Lawful.lift_eq (lawful : C.Lawful) {p : P} (present : p ≠ 0) :
    C.liftEven (C.xOnly p) = some (if C.isOdd p then -p else p) := by
  obtain ⟨p', lifted, same, even⟩ := lawful.liftEven p present
  rcases lawful.xOnly p p' present same with rfl | rfl
  · rw [lifted, even]
    rfl
  · -- the opposite point is the even one, so the point itself is odd
    have odd : C.isOdd p = true := by simpa [lawful.isOdd p present] using even
    rw [lifted, odd]
    rfl

/-- The secret the receiver ends with belongs to the key the payer has locked the notes to. -/
theorem onetimeSecretForShare_signs [Fact q.Prime] [Module (ZMod q) P] (lawful : C.Lawful)
    {shareSk ephemeralSk pk ephemeralPk sk : Bytes} {s e : ZMod q}
    (share : C.secretFromSlice shareSk = some s) (ephemeral : C.secretFromSlice ephemeralSk = some e)
    (paid : onetimeKeyForShare C (C.xOnly (s • C.base)) ephemeralSk = .ok (pk, ephemeralPk))
    (received : onetimeSecretForShare C shareSk (C.serialize (e • C.base)) = .ok sk) :
    ephemeralPk = C.serialize (e • C.base) ∧
      ∃ onetime, C.secretFromSlice sk = some onetime ∧ C.xOnly (onetime • C.base) = pk := by
  have sPoint := lawful.lift_eq (smul_ne_zero (lawful.secret _ s share) lawful.base)
  have ePub := lawful.serialize _ (smul_ne_zero (lawful.secret _ e ephemeral) lawful.base)
  -- turning the secret around turns its point around
  have turned : (if C.isOdd (s • C.base) then -(s • C.base) else s • C.base) =
      (if C.isOdd (s • C.base) then -s else s) • C.base := by
    split
    next => rw [neg_smul]
    next => rfl
  rw [turned] at sPoint
  simp only [onetimeKeyForShare, onetimeSecretForShare, mulTweak, asKey, share, ephemeral, sPoint, ePub,
    bind_eq_ok, orError_eq_ok, Option.some.injEq, exists_eq_left', Option.map_eq_some_iff,
    Option.ite_none_left_eq_some] at paid received
  generalize (if C.isOdd (s • C.base) then -s else s) = even at *
  obtain ⟨_, ⟨_, ⟨-, rfl⟩, rfl⟩, t, tweak, _, ⟨-, rfl⟩, paid⟩ := paid
  obtain ⟨_, ⟨_, ⟨-, rfl⟩, rfl⟩, t', tweak', _, ⟨nonzero, rfl⟩, received⟩ := received
  -- both have met in one point
  rw [smul_comm, tweak] at tweak'
  obtain rfl := Except.ok.inj tweak'
  obtain ⟨rfl, rfl⟩ := Prod.mk.inj (Except.ok.inj paid)
  obtain rfl := Except.ok.inj received
  exact ⟨rfl, _, lawful.secretBytes _ nonzero, by rw [add_smul]⟩

end Keys

namespace Sample

/-- The numbers modulo seven, the larger half of them odd. -/
def sevenPoints : Curve 7 (ZMod 7) where
  base := 1
  xOnly p := [UInt8.ofNat (min p.val (-p).val)]
  isOdd p := 3 < p.val
  liftEven bytes := [1, 2, 3].find? fun p : ZMod 7 => [UInt8.ofNat p.val] = bytes
  serialize p := [UInt8.ofNat p.val]
  pointFromSlice bytes := bytes.head?.map fun b => (b.toNat : ZMod 7)
  secretFromSlice bytes := bytes.head?.bind fun b => asKey (b.toNat : ZMod 7)
  secretBytes s := [UInt8.ofNat s.val]
  scalarFromBeBytes bytes := bytes.getLast?.map fun b => (b.toNat : ZMod 7)
  sha256 bytes := bytes

theorem sevenPoints_lawful : sevenPoints.Lawful where
  base := by decide
  secret bytes s found := by
    obtain ⟨b, -, found⟩ := Option.bind_eq_some_iff.mp found
    rw [asKey, Option.ite_none_left_eq_some] at found
    exact Option.some.inj found.2 ▸ found.1
  secretBytes := by decide
  serialize := by decide
  xOnly := by decide
  isOdd := by decide
  liftEven := by decide

instance prime_seven : Fact (Nat.Prime 7) := ⟨by decide⟩

end Sample

open Sample in
/-- The point of share secret 5 is odd. -/
theorem onetimeSecretForShare_signs_odd :
    onetimeKeyForShare sevenPoints [2] [3] = .ok ([3], [3]) ∧ onetimeSecretForShare sevenPoints [5] [3] = .ok [3] ∧
      ∃ onetime, sevenPoints.secretFromSlice [3] = some onetime ∧
        sevenPoints.xOnly (onetime • sevenPoints.base) = [3] := by
  have paid : onetimeKeyForShare sevenPoints [2] [3] = .ok ([3], [3]) := by decide +kernel
  have received : onetimeSecretForShare sevenPoints [5] [3] = .ok [3] := by decide +kernel
  have signs := onetimeSecretForShare_signs (s := 5) (e := 3) sevenPoints_lawful (by decide) (by decide) paid received
  exact ⟨paid, received, signs.2⟩

end Marigold.Wallet
