import Marigold.Lib.Calls
import Marigold.Lib.Matching
import Marigold.Script.SigHash

/-!
# Multisignatures

`op_check_multisig_schnorr_or_ecdsa` of the script engine in `txscript/src/lib.rs`, with the stack of
`data_stack.rs`, the meter of `runtime_resource_meter.rs` and the cache of `caches.rs`. The curve is a parameter.
-/

namespace Marigold.Script

open Lib Transaction Call

/-- A signature scheme of the curve library: how keys and signatures are read, and what is checked. -/
structure Scheme (ε : Type) where
  Key : Type
  Sig : Type
  [keyEq : DecidableEq Key]
  [sigEq : DecidableEq Sig]
  parseKey : Bytes → Except ε Key
  parseSig : Bytes → Except ε Sig
  verify : Sig → Hash → Key → Bool

instance {ε : Type} (T : Scheme ε) : DecidableEq T.Key := T.keyEq

instance {ε : Type} (T : Scheme ε) : DecidableEq T.Sig := T.sigEq

/-- The curve library with its error type, and the two hash functions of signature hashes. -/
structure Secp where
  Error : Type
  schnorr : Scheme Error
  ecdsa : Scheme Error
  signingHash : Bytes → Hash
  signingHashEcdsa : Bytes → Hash

/-! ## Errors -/

inductive TxScriptError (ε : Type) where
  | invalidPubkey (error : ε)
  | invalidSignature (error : ε)
  | tooManyOperations (limit : Nat)
  | notATransactionInput
  | notMinimalData (reason : String)
  | numberTooBig (reason : String)
  | nullFail
  | invalidSignatureCount (reason : String)
  | invalidPubKeyCount (reason : String)
  | invalidSigHashType (type : UInt8)
  | pubKeyFormat
  | invalidStackOperation (needed actual : Nat)
  | exceededCommittedScriptUnits (used limit : UInt64)
  deriving DecidableEq

/-! ## Numbers on the stack -/

/-- `{:x?}` of bytes. -/
def debugHex (bytes : Bytes) : String :=
  "[" ++ ", ".intercalate (bytes.map fun b => String.ofList (Nat.toDigits 16 b.toNat)) ++ "]"

section Numbers

variable {ε : Type}

/-- Sign and magnitude, lowest byte first; at most 63 bits of magnitude fit in eight bytes. -/
def deserializeI64 (v : Bytes) : Except (TxScriptError ε) Int :=
  if v.length > 8 then
    .error (.notMinimalData ("numeric value encoded as " ++ debugHex v ++ " is longer than 8 bytes"))
  else
    match v.getLast? with
    | none => .ok 0
    | some msb =>
      let sign : Int := 1 - 2 * (msb >>> 7).toNat
      let magnitude := v.dropLast.reverse.foldl (fun accum item => accum * 256 + item.toNat) (msb &&& 0x7f).toNat
      .ok (magnitude * sign)

def deserializeI32 (v : Bytes) : Except (TxScriptError ε) Int :=
  if v.length > 8 then
    .error (.numberTooBig ("numeric value encoded as " ++ debugHex v ++ " is " ++ toString v.length ++
      " bytes which exceeds the max allowed of 8"))
  else do
    let value ← deserializeI64 v
    if -2 ^ 31 ≤ value ∧ value < 2 ^ 31 then .ok value
    else .error (.numberTooBig "out of range integral type conversion attempted")

end Numbers

def serializeBool : Bool → Bytes
  | true => [1]
  | false => []

/-! ## The signature cache -/

section Cache

inductive Signature (S : Secp) where
  | secp256k1 (sig : S.schnorr.Sig)
  | ecdsa (sig : S.ecdsa.Sig)
  deriving DecidableEq

inductive PublicKey (S : Secp) where
  | schnorr (key : S.schnorr.Key)
  | ecdsa (key : S.ecdsa.Key)
  deriving DecidableEq

structure SigCacheKey (S : Secp) where
  signature : Signature S
  pubKey : PublicKey S
  message : Hash
  deriving DecidableEq

def SigCacheKey.valid {S : Secp} (key : SigCacheKey S) : Bool :=
  match key.signature, key.pubKey with
  | .secp256k1 sig, .schnorr pk => S.schnorr.verify sig key.message pk
  | .ecdsa sig, .ecdsa pk => S.ecdsa.verify sig key.message pk
  | _, _ => false

/-- Every entry is the result of a verification. The random numbers to come are a part of the state. -/
structure SigCache (S : Secp) where
  map : List (SigCacheKey S × Bool)
  size : Nat
  random : Nat → Nat
  sound : ∀ entry ∈ map, entry.2 = entry.1.valid

/-- `swap_remove_index`: the last item takes the place of the removed one. -/
def swapRemoveIndex {α : Type} (items : List α) (i : Nat) : List α :=
  match items.getLast? with
  | none => []
  | some last => (items.set i last).dropLast

theorem mem_of_mem_swapRemoveIndex {α : Type} {items : List α} {i : Nat} {a : α}
    (member : a ∈ swapRemoveIndex items i) : a ∈ items := by
  rw [swapRemoveIndex] at member
  split at member
  · nomatch member
  next last there =>
    rcases List.mem_or_eq_of_mem_set (List.mem_of_mem_dropLast member) with old | new
    · exact old
    · exact new ▸ List.mem_of_getLast? there

/-- `IndexMap::insert`. -/
def insertEntry {K V : Type} [DecidableEq K] (key : K) (value : V) : List (K × V) → List (K × V)
  | [] => [(key, value)]
  | entry :: rest => if entry.1 = key then (key, value) :: rest else entry :: insertEntry key value rest

theorem mem_insertEntry {K V : Type} [DecidableEq K] {key : K} {value : V} {items : List (K × V)} {entry : K × V}
    (member : entry ∈ insertEntry key value items) : entry = (key, value) ∨ entry ∈ items := by
  induction items with
  | nil => exact .inl (List.mem_singleton.mp member)
  | cons first rest ih =>
    rw [insertEntry] at member
    split at member <;> grind

namespace SigCache

variable {S : Secp}

def get (cache : SigCache S) (key : SigCacheKey S) : Option Bool :=
  (cache.map.find? fun entry => entry.1 = key).map Prod.snd

/-- What is kept when the cache has to make room. -/
def room (cache : SigCache S) : List (SigCacheKey S × Bool) :=
  if cache.map.length = cache.size then swapRemoveIndex cache.map (cache.random 0 % cache.size) else cache.map

def insert (cache : SigCache S) (key : SigCacheKey S) (data : Bool) (verified : data = key.valid) : SigCache S :=
  if cache.size = 0 then cache
  else
    { map := insertEntry key data cache.room
      size := cache.size
      random := fun n => cache.random (n + 1)
      sound := by
        intro entry member
        rcases mem_insertEntry member with rfl | old
        · exact verified
        · have kept : entry ∈ cache.map := by
            rw [room] at old
            split at old
            · exact mem_of_mem_swapRemoveIndex old
            · exact old
          exact cache.sound entry kept }

theorem get_eq_some {cache : SigCache S} {key : SigCacheKey S} {data : Bool} (found : cache.get key = some data) :
    data = key.valid := by
  obtain ⟨entry, here, rfl⟩ := Option.map_eq_some_iff.mp found
  have same := List.find?_some here
  rw [decide_eq_true_eq] at same
  exact same ▸ cache.sound entry (List.mem_of_find?_eq_some here)

end SigCache

end Cache

/-! ## The engine -/

structure RuntimeResourceMeter where
  usedSigOps : UInt16
  sigopScriptUnits : UInt64
  scriptUnitsLimit : UInt64
  remainingScriptUnits : UInt64

inductive ScriptSource where
  | txInput (p : PopulatedInput)
  | standAloneScripts (scripts : List Bytes)

/-- The parts of `TxScriptEngine` that signature checks use. The stack is a vector whose last item is on top. -/
structure TxScriptEngine (S : Secp) where
  dstack : List Bytes
  pushedBytes : Nat
  scriptSource : ScriptSource
  numOps : Nat
  meter : RuntimeResourceMeter
  reusedValues : SigHashReusedValues
  sigCache : SigCache S

abbrev Run (S : Secp) (α : Type) := Call (TxScriptEngine S) (TxScriptError S.Error) α

def maxOpsPerScript : Nat := 1000000

def maxPubKeysPerMultisig : Nat := 20

section Engine

variable {S : Secp}

def saturatingAdd (a b : UInt64) : UInt64 := if a.toNat + b.toNat < 2 ^ 64 then a + b else 0xffffffffffffffff

def saturatingMul (a b : UInt64) : UInt64 := if a.toNat * b.toNat < 2 ^ 64 then a * b else 0xffffffffffffffff

def consumeScriptUnits (units : UInt64) : Run S Unit := do
  let meter ← read (·.meter)
  if units ≤ meter.remainingScriptUnits then
    update fun vm => { vm with
      meter := { vm.meter with remainingScriptUnits := meter.remainingScriptUnits - units } }
  else
    let overflow := units - meter.remainingScriptUnits
    fail (.exceededCommittedScriptUnits (saturatingAdd meter.scriptUnitsLimit overflow) meter.scriptUnitsLimit)

def consumeSigOpCost (count : UInt16) : Run S Unit := do
  let meter ← read (·.meter)
  consumeScriptUnits (saturatingMul count.toUInt64 meter.sigopScriptUnits)
  update fun vm => { vm with meter := { vm.meter with usedSigOps :=
    if vm.meter.usedSigOps.toNat + count.toNat < 2 ^ 16 then vm.meter.usedSigOps + count else 0xffff } }

/-- `split_off(len - count)`. -/
def splitOff (count : Nat) : Run S (List Bytes) := do
  let stack ← read (·.dstack)
  if stack.length ≥ count then
    update fun vm => { vm with dstack := stack.take (stack.length - count) }
    return stack.drop (stack.length - count)
  else fail (.invalidStackOperation count stack.length)

/-- `pop_items` of one `i32`; the item is gone even if it is no number. -/
def popI32 : Run S Int := do
  let items ← splitOff 1
  ofExcept (deserializeI32 (items.headD []))

def pushBool (item : Bool) : Run S Unit :=
  update fun vm => { vm with
    dstack := vm.dstack ++ [serializeBool item]
    pushedBytes := vm.pushedBytes + (serializeBool item).length }

/-- A signature hash, with the values that the engine reuses. -/
def reusing (hash : Reusing Hash) : Run S Hash := fun vm =>
  (.ok (hash vm.reusedValues).1, { vm with reusedValues := (hash vm.reusedValues).2 })

def verifyCached (key : SigCacheKey S) : Run S Bool := do
  match ← read (·.sigCache.get key) with
  | some valid => return valid
  | none =>
    update fun vm => { vm with sigCache := vm.sigCache.insert key key.valid rfl }
    return key.valid

def checkSignatureWithMsgHash (T : Scheme S.Error) (encoding : Bytes → Except (TxScriptError S.Error) Unit)
    (cacheKey : T.Sig → T.Key → Hash → SigCacheKey S) (key sig : Bytes) (msgHash : Reusing Hash) : Run S Bool := do
  consumeSigOpCost 1
  ofExcept (encoding key)
  let pk ← ofExcept ((T.parseKey key).mapError .invalidPubkey)
  let sig ← ofExcept ((T.parseSig sig).mapError .invalidSignature)
  let message ← reusing msgHash
  verifyCached (cacheKey sig pk message)

def checkSchnorrSignatureWithMsgHash : Bytes → Bytes → Reusing Hash → Run S Bool :=
  checkSignatureWithMsgHash S.schnorr (fun _ => .ok ()) fun sig pk message => ⟨.secp256k1 sig, .schnorr pk, message⟩

def checkPubKeyEncodingEcdsa (pubKey : Bytes) : Except (TxScriptError S.Error) Unit :=
  if pubKey.length = 33 then .ok () else .error .pubKeyFormat

def checkEcdsaSignatureWithMsgHash : Bytes → Bytes → Reusing Hash → Run S Bool :=
  checkSignatureWithMsgHash S.ecdsa checkPubKeyEncodingEcdsa fun sig pk message => ⟨.ecdsa sig, .ecdsa pk, message⟩

def checkSchnorrSignature (hashType : SigHashType) (key sig : Bytes) : Run S Bool := do
  match ← read (·.scriptSource) with
  | .txInput p => checkSchnorrSignatureWithMsgHash key sig (calcSchnorrSignatureHash S.signingHash p hashType)
  | .standAloneScripts _ => fail .notATransactionInput

def checkEcdsaSignature (hashType : SigHashType) (key sig : Bytes) : Run S Bool := do
  match ← read (·.scriptSource) with
  | .txInput p =>
    checkEcdsaSignatureWithMsgHash key sig (calcEcdsaSignatureHash S.signingHash S.signingHashEcdsa p hashType)
  | .standAloneScripts _ => fail .notATransactionInput

def checkSignature (ecdsa : Bool) (hashType : SigHashType) (key sig : Bytes) : Run S Bool :=
  if ecdsa then checkEcdsaSignature hashType key sig else checkSchnorrSignature hashType key sig

/-! ## The operation -/

/-- The inner loop: the keys after the one that fits, or nothing if too few are left for this signature and the
`later` ones. -/
def findKey (ecdsa : Bool) (hashType : SigHashType) (sig : Bytes) (later : Nat) : List Bytes → Run S (Option (List Bytes))
  | [] => pure none
  | key :: rest => do
    if rest.length + 1 < later + 1 then return none
    if ← checkSignature ecdsa hashType key sig then return some rest
    findKey ecdsa hashType sig later rest

/-- The outer loop; it returns `failed`. -/
def matchSignatures (ecdsa : Bool) : List Bytes → List Bytes → Run S Bool
  | [], _ => pure false
  | sig :: sigs, keys =>
    match sig.getLast? with
    | none => pure true
    | some typ =>
      match SigHashType.fromU8 typ with
      | none => fail (.invalidSigHashType typ)
      | some hashType => do
        match ← findKey ecdsa hashType sig.dropLast sigs.length keys with
        | none => return true
        | some rest => matchSignatures ecdsa sigs rest

def takeKeys : Run S (List Bytes) := do
  let numKeys ← popI32
  if numKeys < 0 then
    fail (.invalidPubKeyCount ("number of pubkeys " ++ toString numKeys ++ " is negative"))
  else if numKeys > maxPubKeysPerMultisig then
    fail (.invalidPubKeyCount ("too many pubkeys " ++ toString numKeys ++ " > " ++ toString maxPubKeysPerMultisig))
  else
    update fun vm => { vm with numOps := vm.numOps + numKeys.toNat }
    if (← read (·.numOps)) > maxOpsPerScript then fail (.tooManyOperations maxOpsPerScript)
    else splitOff numKeys.toNat

def takeSignatures (numKeys : Nat) : Run S (List Bytes) := do
  let numSigs ← popI32
  if numSigs < 0 then
    fail (.invalidSignatureCount ("number of signatures " ++ toString numSigs ++ " is negative"))
  else if numSigs > numKeys then
    fail (.invalidSignatureCount ("more signatures than pubkeys " ++ toString numSigs ++ " > " ++ toString numKeys))
  else splitOff numSigs.toNat

def opCheckMultisigSchnorrOrEcdsa (ecdsa : Bool) : Run S Unit := do
  let pubKeys ← takeKeys
  let signatures ← takeSignatures pubKeys.length
  let failed ← matchSignatures ecdsa signatures pubKeys
  if failed && signatures.any fun sig => !sig.isEmpty then fail .nullFail
  else pushBool !failed

end Engine

/-! ## What a check says -/

section Checks

variable {S : Secp} {ecdsa : Bool} {p : PopulatedInput} {stack : List Bytes} {checks : Nat} {vm : TxScriptEngine S}
variable {key sig : Bytes} {keys sigs : List Bytes} {t : SigHashType}

namespace Secp

def scheme (S : Secp) : Bool → Scheme S.Error
  | true => S.ecdsa
  | false => S.schnorr

/-- The signed message, computed without reuse. -/
def message (S : Secp) (p : PopulatedInput) (t : SigHashType) : Bool → Hash
  | true => (calcEcdsaSignatureHash S.signingHash S.signingHashEcdsa p t .new).1
  | false => (calcSchnorrSignatureHash S.signingHash p t .new).1

/-- The signature, which ends with its hash type, verifies under the key. -/
def Verifies (S : Secp) (ecdsa : Bool) (p : PopulatedInput) (sig key : Bytes) : Prop :=
  ∃ t s k, sig.getLast? = some t.val ∧ (S.scheme ecdsa).parseSig sig.dropLast = .ok s ∧
    (S.scheme ecdsa).parseKey key = .ok k ∧ (S.scheme ecdsa).verify s (S.message p t ecdsa) k = true

structure WellFormedKey (S : Secp) (ecdsa : Bool) (key : Bytes) : Prop where
  length : ecdsa = true → key.length = 33
  parses : ∃ k, (S.scheme ecdsa).parseKey key = .ok k

/-- An empty signature stands for a missing one. -/
def WellFormedSignature (S : Secp) (ecdsa : Bool) (sig : Bytes) : Prop :=
  sig = [] ∨ ∃ (t : SigHashType) (s : (S.scheme ecdsa).Sig), sig.getLast? = some t.val ∧
    (S.scheme ecdsa).parseSig sig.dropLast = .ok s

end Secp

theorem SigHashType.fromU8_val (t : SigHashType) : SigHashType.fromU8 t.val = some t := dif_pos t.allowed

theorem SigHashType.val_inj {t t' : SigHashType} (same : t.val = t'.val) : t = t' := by
  cases t
  cases t'
  cases same
  rfl

/-- An engine at an input of a transaction, with units for a number of checks. -/
structure Ready (p : PopulatedInput) (stack : List Bytes) (checks : Nat) (vm : TxScriptEngine S) : Prop where
  source : vm.scriptSource = .txInput p
  reused : ReusedOf S.signingHash p.tx vm.reusedValues
  stack : vm.dstack = stack
  units : checks * vm.meter.sigopScriptUnits.toNat ≤ vm.meter.remainingScriptUnits.toNat

theorem Ready.mono {fewer : Nat} (ready : Ready p stack checks vm) (le : fewer ≤ checks) : Ready p stack fewer vm :=
  ⟨ready.source, ready.reused, ready.stack, (Nat.mul_le_mul_right _ le).trans ready.units⟩

theorem wp_consumeSigOpCost (ready : Ready p stack (checks + 1) vm) :
    wp (consumeSigOpCost 1) (fun _ vm' => Ready p stack checks vm') (fun _ _ => False) vm := by
  have units := ready.units
  rw [Nat.succ_mul] at units
  have once : saturatingMul (1 : UInt16).toUInt64 vm.meter.sigopScriptUnits = vm.meter.sigopScriptUnits := by
    have small : (1 : UInt16).toUInt64.toNat * vm.meter.sigopScriptUnits.toNat < 2 ^ 64 := by
      simpa using vm.meter.sigopScriptUnits.toNat_lt
    rw [saturatingMul, if_pos small]
    exact UInt64.one_mul _
  have enough : vm.meter.sigopScriptUnits ≤ vm.meter.remainingScriptUnits := by
    rw [UInt64.le_iff_toNat_le]
    omega
  simp only [consumeSigOpCost, consumeScriptUnits, wp_bind, wp_read, once, if_pos enough, wp_update]
  refine ⟨ready.source, ready.reused, ready.stack, ?_⟩
  change _ ≤ (vm.meter.remainingScriptUnits - vm.meter.sigopScriptUnits).toNat
  rw [UInt64.toNat_sub_of_le _ _ enough]
  exact Nat.le_sub_of_add_le units

theorem wp_verifyCached {key : SigCacheKey S} (ready : Ready p stack checks vm) :
    wp (verifyCached key) (fun valid vm' => valid = key.valid ∧ Ready p stack checks vm') (fun _ _ => False) vm := by
  rw [verifyCached, wp_bind, wp_read]
  cases found : vm.sigCache.get key with
  | some valid => exact ⟨SigCache.get_eq_some found, ready⟩
  | none => exact ⟨rfl, ready.source, ready.reused, ready.stack, ready.units⟩

theorem wp_checkSignatureWithMsgHash {T : Scheme S.Error} {encoding : Bytes → Except (TxScriptError S.Error) Unit}
    {cacheKey : T.Sig → T.Key → Hash → SigCacheKey S} {msgHash : Reusing Hash} {message : Hash} {k : T.Key} {s : T.Sig}
    (ready : Ready p stack (checks + 1) vm) (encoded : encoding key = .ok ()) (keyParsed : T.parseKey key = .ok k)
    (sigParsed : T.parseSig sig = .ok s) (computes : Computes S.signingHash p.tx msgHash message) :
    wp (checkSignatureWithMsgHash T encoding cacheKey key sig msgHash)
      (fun valid vm' => valid = (cacheKey s k message).valid ∧ Ready p stack checks vm') (fun _ _ => False) vm := by
  rw [checkSignatureWithMsgHash, wp_bind]
  refine wp_total (wp_consumeSigOpCost ready) fun _ vm₁ ready₁ => ?_
  simp only [encoded, keyParsed, sigParsed, Except.mapError, wp_bind, wp_ofExcept_ok]
  obtain ⟨value, later⟩ := computes vm₁.reusedValues ready₁.reused
  change wp (verifyCached (cacheKey s k (msgHash vm₁.reusedValues).1)) _ _ _
  rw [value]
  exact wp_verifyCached ⟨ready₁.source, later, ready₁.stack, ready₁.units⟩

theorem wp_checkSignature (ready : Ready p stack (checks + 1) vm) (wellKey : S.WellFormedKey ecdsa key)
    (type : sig.getLast? = some t.val) (wellSig : ∃ s, (S.scheme ecdsa).parseSig sig.dropLast = .ok s) :
    wp (checkSignature ecdsa t key sig.dropLast)
      (fun valid vm' => (valid = true ↔ S.Verifies ecdsa p sig key) ∧ Ready p stack checks vm') (fun _ _ => False) vm := by
  obtain ⟨k, keyParsed⟩ := wellKey.parses
  obtain ⟨s, sigParsed⟩ := wellSig
  have verifies : S.Verifies ecdsa p sig key ↔ (S.scheme ecdsa).verify s (S.message p t ecdsa) k = true := by
    constructor
    · rintro ⟨t', s', k', type', sigParsed', keyParsed', verified⟩
      cases SigHashType.val_inj (Option.some.inj (type.symm.trans type'))
      cases sigParsed.symm.trans sigParsed'
      cases keyParsed.symm.trans keyParsed'
      exact verified
    · exact fun verified => ⟨t, s, k, type, sigParsed, keyParsed, verified⟩
  rw [verifies]
  cases ecdsa with
  | true =>
    simp only [checkSignature, if_true, checkEcdsaSignature, wp_bind, wp_read, ready.source]
    have computes := computes_calcEcdsaSignatureHash (H := S.signingHash) S.signingHashEcdsa p t
    have message : S.message p t true = _ := (computes .new reusedOf_new).1
    rw [← message] at computes
    refine wp_total (wp_checkSignatureWithMsgHash ready (if_pos (wellKey.length rfl)) keyParsed sigParsed computes)
      fun valid vm' done => ?_
    exact ⟨by rw [done.1]; rfl, done.2⟩
  | false =>
    simp only [checkSignature, Bool.false_eq_true, if_false, checkSchnorrSignature, wp_bind, wp_read, ready.source]
    have computes := computes_calcSchnorrSignatureHash (H := S.signingHash) p t
    have message : S.message p t false = _ := (computes .new reusedOf_new).1
    rw [← message] at computes
    refine wp_total (wp_checkSignatureWithMsgHash ready rfl keyParsed sigParsed computes) fun valid vm' done => ?_
    exact ⟨by rw [done.1]; rfl, done.2⟩

end Checks

/-! ## The loops -/

section Loops

variable {S : Secp} {ecdsa : Bool} {p : PopulatedInput} {stack : List Bytes} {vm : TxScriptEngine S} {sig : Bytes}
variable {keys sigs : List Bytes} {t : SigHashType}

variable (ready : Ready p stack keys.length vm) (wellKeys : ∀ key ∈ keys, S.WellFormedKey ecdsa key)

include ready wellKeys

/-- The key that is found may be used: the rest has to match the rest. -/
theorem wp_findKey (type : sig.getLast? = some t.val) (wellSig : ∃ s, (S.scheme ecdsa).parseSig sig.dropLast = .ok s) :
    wp (findKey ecdsa t sig.dropLast sigs.length keys) (fun found vm' =>
        match found with
        | none => Ready p stack 0 vm' ∧ ¬List.SublistForall₂ (S.Verifies ecdsa p) (sig :: sigs) keys
        | some rest => Ready p stack rest.length vm' ∧ rest ⊆ keys ∧
          (List.SublistForall₂ (S.Verifies ecdsa p) (sig :: sigs) keys ↔
            List.SublistForall₂ (S.Verifies ecdsa p) sigs rest))
      (fun _ _ => False) vm := by
  induction keys generalizing vm with
  | nil => exact ⟨ready, fun fits => nomatch fits⟩
  | cons key rest ih =>
    rw [findKey]
    split
    next short =>
      refine ⟨ready.mono (Nat.zero_le _), fun fits => ?_⟩
      have long := SublistForall₂.length_le fits
      simp only [List.length_cons] at long
      omega
    · rw [wp_bind]
      refine wp_total (wp_checkSignature ready (wellKeys key (by simp)) type wellSig) fun valid vm₁ checked => ?_
      obtain ⟨answer, ready₁⟩ := checked
      cases valid with
      | true =>
        exact ⟨ready₁, List.subset_cons_self key rest, sublistForall₂_cons_iff_of_fits (answer.mp rfl)⟩
      | false =>
        have misfit : ¬S.Verifies ecdsa p sig key := fun fit => Bool.false_ne_true (answer.mpr fit)
        simp only [Bool.false_eq_true, if_false]
        refine wp_total (ih ready₁ fun key member => wellKeys key (.tail _ member)) fun found vm₂ done => ?_
        cases found with
        | none => exact ⟨done.1, fun fits => done.2 ((sublistForall₂_cons_iff_of_not misfit).mp fits)⟩
        | some left =>
          exact ⟨done.1, fun key member => .tail _ (done.2.1 member),
            (sublistForall₂_cons_iff_of_not misfit).trans done.2.2⟩

theorem wp_matchSignatures (wellSigs : ∀ sig ∈ sigs, S.WellFormedSignature ecdsa sig) :
    wp (matchSignatures ecdsa sigs keys)
      (fun failed vm' => Ready p stack 0 vm' ∧ (failed = false ↔ List.SublistForall₂ (S.Verifies ecdsa p) sigs keys))
      (fun _ _ => False) vm := by
  induction sigs generalizing keys vm with
  | nil => exact ⟨ready.mono (Nat.zero_le _), fun _ => .nil, fun _ => rfl⟩
  | cons sig sigs ih =>
    rw [matchSignatures]
    rcases wellSigs sig (by simp) with rfl | ⟨t, s, type, parsed⟩
    · -- a missing signature verifies under no key
      have none : ∀ {keys : List Bytes}, ¬List.SublistForall₂ (S.Verifies ecdsa p) ([] :: sigs) keys := by
        intro keys fits
        obtain ⟨partners, pairs, -⟩ := List.sublistForall₂_iff.mp fits
        cases pairs with
        | cons verifies _ =>
          obtain ⟨t, s, k, type, -⟩ := verifies
          cases type
      exact ⟨ready.mono (Nat.zero_le _), iff_of_false Bool.noConfusion none⟩
    · simp only [type, SigHashType.fromU8_val, wp_bind]
      refine wp_total (wp_findKey ready wellKeys type ⟨s, parsed⟩) fun found vm₁ done => ?_
      cases found with
      | none => exact ⟨done.1, iff_of_false Bool.noConfusion done.2⟩
      | some rest =>
        obtain ⟨ready₁, sub, same⟩ := done
        rw [same]
        exact ih ready₁ (fun key member => wellKeys key (sub member)) fun sig member =>
          wellSigs sig (.tail _ member)

end Loops

/-! ## The operation on a stack -/

section Operation

variable {S : Secp} {ecdsa : Bool} {p : PopulatedInput} {base keys sigs : List Bytes} {vm : TxScriptEngine S}
  {rest : List Bytes} {Q : List Bytes → TxScriptEngine S → Prop} {E : TxScriptError S.Error → TxScriptEngine S → Prop}

theorem wp_splitOff {items : List Bytes} (stack : vm.dstack = rest ++ items)
    (after : Q items { vm with dstack := rest }) : wp (splitOff items.length) Q E vm := by
  have enough : items.length ≤ (rest ++ items).length := by simp
  have cut : (rest ++ items).length - items.length = rest.length := by simp
  simp only [splitOff, wp_bind, wp_read, stack, ge_iff_le, enough, if_true, wp_update, wp_pure, cut,
    List.take_left, List.drop_left]
  exact after

theorem wp_popI32 {item : Bytes} {value : Int} {Q : Int → TxScriptEngine S → Prop} (stack : vm.dstack = rest ++ [item])
    (number : deserializeI32 (ε := S.Error) item = .ok value) (after : Q value { vm with dstack := rest }) :
    wp popI32 Q E vm := by
  rw [popI32, wp_bind]
  refine wp_splitOff stack ?_
  rw [List.headD_cons, number]
  exact after

/-- What an operation finds on the stack, with the room it needs in the limits. -/
structure Prepared (S : Secp) (ecdsa : Bool) (p : PopulatedInput) (base sigs keys : List Bytes)
    (vm : TxScriptEngine S) : Prop where
  stack : ∃ numSigs numKeys : Bytes, vm.dstack = base ++ sigs ++ [numSigs] ++ keys ++ [numKeys] ∧
    deserializeI32 (ε := S.Error) numSigs = .ok sigs.length ∧ deserializeI32 (ε := S.Error) numKeys = .ok keys.length
  source : vm.scriptSource = .txInput p
  used : Used S.signingHash p.tx vm.reusedValues
  counts : sigs.length ≤ keys.length
  limit : keys.length ≤ maxPubKeysPerMultisig
  wellKeys : ∀ key ∈ keys, S.WellFormedKey ecdsa key
  wellSigs : ∀ sig ∈ sigs, S.WellFormedSignature ecdsa sig

/-- The limits leave room for one operation and one check for each key. -/
structure Affordable (keys : List Bytes) (vm : TxScriptEngine S) : Prop where
  ops : vm.numOps + keys.length ≤ maxOpsPerScript
  units : keys.length * vm.meter.sigopScriptUnits.toNat ≤ vm.meter.remainingScriptUnits.toNat

/-- The operation replaces its arguments by a truth value. -/
def Pushes (ecdsa : Bool) (vm : TxScriptEngine S) (base : List Bytes) (value : Bool) : Prop :=
  ∃ vm', opCheckMultisigSchnorrOrEcdsa ecdsa vm = (.ok (), vm') ∧ vm'.dstack = base ++ [serializeBool value]

/-- Each signature has a key of its own under which it verifies, in order. -/
def OrderedMatch (S : Secp) (ecdsa : Bool) (p : PopulatedInput) (sigs keys : List Bytes) : Prop :=
  ∃ f : Fin sigs.length ↪o Fin keys.length, ∀ i, S.Verifies ecdsa p (sigs.get i) (keys.get (f i))

theorem wp_takeKeys {numKeys : Bytes} (stack : vm.dstack = rest ++ keys ++ [numKeys])
    (number : deserializeI32 (ε := S.Error) numKeys = .ok keys.length) (limit : keys.length ≤ maxPubKeysPerMultisig)
    (ops : vm.numOps + keys.length ≤ maxOpsPerScript)
    (after : Q keys { vm with dstack := rest, numOps := vm.numOps + keys.length }) : wp takeKeys Q E vm := by
  rw [takeKeys, wp_bind]
  refine wp_popI32 stack number ?_
  have notNegative : ¬(keys.length : Int) < 0 := by omega
  have notMany : ¬(keys.length : Int) > maxPubKeysPerMultisig := by omega
  rw [if_neg notNegative, if_neg notMany]
  simp only [wp_bind, wp_update, wp_read, Int.toNat_natCast, if_neg (Nat.not_lt.mpr ops)]
  exact wp_splitOff rfl after

theorem wp_takeSignatures {numSigs : Bytes} (stack : vm.dstack = base ++ sigs ++ [numSigs])
    (number : deserializeI32 (ε := S.Error) numSigs = .ok sigs.length) (counts : sigs.length ≤ keys.length)
    (after : Q sigs { vm with dstack := base }) : wp (takeSignatures keys.length) Q E vm := by
  rw [takeSignatures, wp_bind]
  refine wp_popI32 stack number ?_
  have notNegative : ¬(sigs.length : Int) < 0 := by omega
  have notMany : ¬(sigs.length : Int) > keys.length := by omega
  rw [if_neg notNegative, if_neg notMany, Int.toNat_natCast]
  exact wp_splitOff rfl after

/-- The operation ends with the one of three results that the signatures call for. -/
theorem wp_opCheckMultisig (prepared : Prepared S ecdsa p base sigs keys vm) (affordable : Affordable keys vm) :
    wp (opCheckMultisigSchnorrOrEcdsa ecdsa)
      (fun _ vm' => (OrderedMatch S ecdsa p sigs keys ∧ vm'.dstack = base ++ [serializeBool true]) ∨
        (¬OrderedMatch S ecdsa p sigs keys ∧ (∀ sig ∈ sigs, sig = []) ∧ vm'.dstack = base ++ [serializeBool false]))
      (fun e _ => e = .nullFail ∧ ¬OrderedMatch S ecdsa p sigs keys ∧ ¬∀ sig ∈ sigs, sig = []) vm := by
  obtain ⟨numSigs, numKeys, stack, sigsCount, keysCount⟩ := prepared.stack
  rw [opCheckMultisigSchnorrOrEcdsa, wp_bind]
  refine wp_takeKeys stack keysCount prepared.limit affordable.ops ?_
  rw [wp_bind]
  refine wp_takeSignatures rfl sigsCount prepared.counts ?_
  rw [wp_bind]
  have ready : Ready p base keys.length { vm with dstack := base, numOps := vm.numOps + keys.length } :=
    ⟨prepared.source, reusedOf_of_used prepared.used, rfl, affordable.units⟩
  refine wp_total (wp_matchSignatures ready prepared.wellKeys prepared.wellSigs) fun failed vm₁ done => ?_
  obtain ⟨ready₁, answer⟩ := done
  have answer : failed = false ↔ OrderedMatch S ecdsa p sigs keys :=
    answer.trans sublistForall₂_iff_exists_orderEmbedding
  have stack₁ := ready₁.stack
  cases failed with
  | false =>
    simp only [Bool.false_and, Bool.false_eq_true, if_false]
    exact .inl ⟨answer.mp rfl, congrArg (· ++ _) stack₁⟩
  | true =>
    have unmatched : ¬OrderedMatch S ecdsa p sigs keys := fun matched => nomatch answer.mpr matched
    simp only [Bool.true_and]
    split
    next some =>
      refine ⟨rfl, unmatched, fun empty => ?_⟩
      obtain ⟨sig, member, full⟩ := List.any_eq_true.mp some
      simp [empty sig member] at full
    next none =>
      refine .inr ⟨unmatched, fun sig member => ?_, congrArg (· ++ _) stack₁⟩
      by_contra full
      exact none (List.any_eq_true.mpr ⟨sig, member, by simpa using full⟩)

end Operation

namespace Sample

/-- Keys sign by showing themselves. -/
def scheme : Scheme Unit := ⟨Bytes, Bytes, .ok, .ok, fun sig _ key => sig == key⟩

def secp : Secp := ⟨Unit, scheme, scheme, hash, hash⟩

def keys : List Bytes := [[7], [8], [9]]

/-- Signatures of the first and the last key. -/
def signatures : List Bytes := [[7, sigHashAll], [9, sigHashAll]]

/-- An engine with two signatures and three keys on its stack, and the given budget. -/
def engine (units : UInt64) : TxScriptEngine secp where
  dstack := [[7, sigHashAll], [9, sigHashAll], [2], [7], [8], [9], [3]]
  pushedBytes := 0
  scriptSource := .txInput (paying 1)
  numOps := 0
  meter := ⟨0, 1000, units, units⟩
  reusedValues := .new
  sigCache := ⟨[], 0, fun _ => 0, fun _ none => nomatch none⟩

theorem prepared (units : UInt64) : Prepared secp false (paying 1) [] signatures keys (engine units) where
  stack := ⟨[2], [3], rfl, rfl, rfl⟩
  source := rfl
  used := .new
  counts := by decide
  limit := by decide
  wellKeys := fun key _ => ⟨Bool.noConfusion, key, rfl⟩
  wellSigs := by
    intro sig member
    simp only [signatures, List.mem_cons, List.not_mem_nil, or_false] at member
    rcases member with rfl | rfl
    · exact .inr ⟨⟨sigHashAll, by decide⟩, [7], rfl, rfl⟩
    · exact .inr ⟨⟨sigHashAll, by decide⟩, [9], rfl, rfl⟩

theorem matched : OrderedMatch secp false (paying 1) signatures keys := by
  have verifies (b : UInt8) : secp.Verifies false (paying 1) [b, sigHashAll] [b] :=
    ⟨⟨sigHashAll, by decide⟩, [b], [b], rfl, rfl, rfl, beq_self_eq_true [b]⟩
  exact sublistForall₂_iff_exists_orderEmbedding.mp (.cons (verifies 7) (.cons_right (.cons (verifies 9) .nil)))

end Sample

end Marigold.Script
