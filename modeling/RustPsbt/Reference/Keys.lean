import RustPsbt.Reference.Signing
import RustPsbt.Roles.Session

/-!
# Reference keys and sighashes

Private keys whose public keys and signatures are digests, and a sighash engine that
digests what it is given.
-/

namespace RustPsbt
namespace Reference

attribute [local instance] Reference.types Reference.txidHash Reference.scriptHashes

/-! ## Keys -/

/-- A private key: a secret, and the parity of its public key. -/
structure RefKey where
  secret : U8Array 32
  parity : Parity
deriving DecidableEq

/-- The compressed public key with the given coordinate and parity. -/
def compressedOf (x : U8Array 32) (parity : Parity) :
    Shaped fun b => isCompressed b || isUncompressed b :=
  match parity with
  | .even => ⟨2 :: x.bytes, isPublicKey_even x⟩
  | .odd => ⟨3 :: x.bytes, isPublicKey_odd x⟩

/-- The parity of a public key. -/
def parityOf (pk : Shaped fun b => isCompressed b || isUncompressed b) : Parity :=
  match pk.bytes.head? with
  | some 2 => .even
  | some 3 => .odd
  | _ => if (pk.bytes.getLast?.getD 0) % 2 = 0 then .even else .odd

/-- An ECDSA signature names its sighash type. -/
def ecdsaOf (raw : U8Array 32) (ty : EcdsaSighashType) : Shaped isEcdsaSignature :=
  ⟨raw.bytes ++ [ty.toU32.toUInt8], by simp [isEcdsaSignature, raw.length_eq]⟩

/-- A sighash byte may follow the bytes of a taproot signature. -/
theorem isTaprootSignature_concat (raw : U8Array 64) {sighash : UInt8}
    (h : sighash ∈ taprootSighashBytes) : isTaprootSignature (raw.bytes ++ [sighash]) = true := by
  simp [isTaprootSignature, raw.length_eq, h]

/-- The sighash byte of a taproot signature. -/
def taprootOf (raw : U8Array 64) (ty : TapSighashType) : Shaped isTaprootSignature :=
  match ty with
  | .default => ⟨raw.bytes, by simp [isTaprootSignature, raw.length_eq]⟩
  | .all => ⟨raw.bytes ++ [0x01], isTaprootSignature_concat raw (by decide)⟩
  | .none => ⟨raw.bytes ++ [0x02], isTaprootSignature_concat raw (by decide)⟩
  | .single => ⟨raw.bytes ++ [0x03], isTaprootSignature_concat raw (by decide)⟩
  | .allPlusAnyoneCanPay =>
      ⟨raw.bytes ++ [0x81], isTaprootSignature_concat raw (by decide)⟩
  | .nonePlusAnyoneCanPay =>
      ⟨raw.bytes ++ [0x82], isTaprootSignature_concat raw (by decide)⟩
  | .singlePlusAnyoneCanPay =>
      ⟨raw.bytes ++ [0x83], isTaprootSignature_concat raw (by decide)⟩

/-- A key pair: a secret, and the merkle root it is tweaked with, if it is. -/
structure RefKeypair where
  secret : U8Array 32
  tweak : Option (Option TapNodeHash)

/-- The bytes of the tweak. -/
def RefKeypair.tweakBytes (keyPair : RefKeypair) : Bytes :=
  match keyPair.tweak with
  | none => []
  | some root => 1 :: (root.map U8Array.bytes).getD []

/-- A Schnorr signature names its key: the first half is the x-only public key before
the tweak. -/
def schnorrOf (msg : Message) (keyPair : RefKeypair) : U8Array 64 :=
  ⟨(digest keyPair.secret.bytes).bytes ++
    (digest (keyPair.secret.bytes ++ keyPair.tweakBytes ++ msg.bytes)).bytes, by
    simp [(digest _).length_eq]⟩

/-- The reference keys. -/
@[reducible]
def secp : Secp where
  PrivateKey := RefKey
  SecretKey := U8Array 32
  Keypair := RefKeypair
  RawEcdsa := U8Array 32
  RawSchnorr := U8Array 64
  inner sk := sk.secret
  publicKey sk := compressedOf (digest sk.secret.bytes) sk.parity
  negate sk := { sk with parity := sk.parity.other }
  xOnlyPublicKey pk := (xOnlyOf pk, parityOf pk)
  ofXOnly x parity := compressedOf x parity
  fromSecretKey sk := { secret := sk, tweak := none }
  tapTweak keyPair root := { keyPair with tweak := some root }
  signEcdsa msg sk := digest (sk.bytes ++ msg.bytes)
  signSchnorr msg keyPair := schnorrOf msg keyPair
  ecdsa := ecdsaOf
  taproot := taprootOf

/-- The x-only public key of a key is the digest of its secret. -/
theorem xonlyOf_refKey (sk : RefKey) :
    @xonlyOf types secp sk = digest sk.secret.bytes := by
  have hx : ∀ (x : U8Array 32) (parity : Parity), xOnlyOf (compressedOf x parity) = x := by
    intro x parity
    have htake : x.bytes.take 32 = x.bytes := List.take_of_length_le (by rw [x.length_eq])
    cases parity <;>
      simp [xOnlyOf, compressedOf, publicKeyBytes, U8Array.ofSlice, htake, x.length_eq]
  exact hx _ _

/-- The sighash type is not in the first half of a taproot signature. -/
theorem take_taprootOf (raw : U8Array 64) (ty : TapSighashType) :
    (taprootOf raw ty).bytes.take 32 = raw.bytes.take 32 := by
  cases ty <;> simp [taprootOf, List.take_append_of_le_length, raw.length_eq]

/-- The first half of a Schnorr signature names the key. -/
theorem take_schnorrOf (msg : Message) (keyPair : RefKeypair) :
    (schnorrOf msg keyPair).bytes.take 32 = (digest keyPair.secret.bytes).bytes := by
  have hlength := (digest keyPair.secret.bytes).length_eq
  simp [schnorrOf, hlength]

/-- Equal taproot signatures are of keys with one x-only public key. -/
theorem xonlyOf_eq_of_taprootOf_eq {sk sk' : RefKey} {msg msg' : Message}
    {tweak tweak' : Option (Option TapNodeHash)} {ty ty' : TapSighashType}
    (h : taprootOf (schnorrOf msg ⟨sk.secret, tweak⟩) ty =
      taprootOf (schnorrOf msg' ⟨sk'.secret, tweak'⟩) ty') :
    @xonlyOf types secp sk = @xonlyOf types secp sk' := by
  have hbytes := congrArg (fun sig => sig.bytes.take 32) h
  simp only [take_taprootOf, take_schnorrOf] at hbytes
  rw [xonlyOf_refKey, xonlyOf_refKey]
  exact U8Array.ext hbytes

/-- The fingerprint of an extended private key. -/
def refFingerprint (xpriv : U8Array 32) : Fingerprint :=
  ⟨(digest xpriv.bytes).bytes.take 4, by simp [(digest xpriv.bytes).length_eq]⟩

/-- The extended private key at a path. -/
def refDerive (xpriv : U8Array 32) (path : DerivationPath) : U8Array 32 :=
  digest (xpriv.bytes ++ path.flatMap fun child => leBytes 4 child.toNat)

/-- Keys derived by digests of the path. -/
@[reducible]
def bip32 : @Bip32 types secp :=
  letI := secp
  { Xpriv := U8Array 32
    Bip32Error := Unit
    fingerprint := refFingerprint
    parentFingerprint := fun _ => .zero 4
    childNumber := fun _ => 0
    derivePriv := fun xpriv path =>
      .ok (refDerive xpriv path)
    toPriv := fun xpriv => { secret := xpriv, parity := .even } }

/-! ## Sighashes -/

/-- The prevouts fit the transaction. -/
def prevoutsFit (tx : Transaction) (index : Nat) (ty : TapSighashType) : Prevouts → Bool
  | .one k _ => k == index && ty.isAnyoneCanPay
  | .all prevouts => prevouts.length == tx.input.length

/-- The taproot sighash of the given data, if it exists. -/
def taprootDigest (tx : Transaction) (index : Nat) (prevouts : Prevouts)
    (ty : TapSighashType) (data : Bytes) : Except Unit Message :=
  if index < tx.input.length ∧ prevoutsFit tx index ty prevouts ∧
      (ty.isSingle → index < tx.output.length) then
    .ok (digest (strippedTxBytes tx ++ leBytes 4 index ++ data))
  else
    .error ()

/-- The reference sighashes. -/
@[reducible]
def sighashEngine : SighashEngine where
  SighashError := Unit
  legacySignatureHash tx index script ty :=
    if index < tx.input.length then
      .ok (digest (strippedTxBytes tx ++ leBytes 4 index ++ script ++ leBytes 4 ty.toNat))
    else .error ()
  p2wpkhSignatureHash tx index script _ ty :=
    if index < tx.input.length ∧ ScriptBuf.isP2wpkh script then
      .ok (digest (strippedTxBytes tx ++ leBytes 4 index ++ script ++
        leBytes 4 ty.toU32.toNat))
    else .error ()
  p2wshSignatureHash tx index script _ ty :=
    if index < tx.input.length then
      .ok (digest (strippedTxBytes tx ++ leBytes 4 index ++ script ++
        leBytes 4 ty.toU32.toNat))
    else .error ()
  taprootKeySpendSignatureHash tx index prevouts ty :=
    taprootDigest tx index prevouts ty (leBytes 4 ty.toU32.toNat)
  taprootScriptSpendSignatureHash tx index prevouts leafHash ty :=
    taprootDigest tx index prevouts ty (leBytes 4 ty.toU32.toNat ++ leafHash.bytes)

/-- Where the taproot sighash exists, the digest is returned. -/
theorem taprootDigest_isOk {tx : Transaction} {index : Nat} {prevouts : Prevouts}
    {ty : TapSighashType} (h : TaprootSighashExists tx index prevouts ty) (data : Bytes) :
    ∃ msg, taprootDigest tx index prevouts ty data = .ok msg := by
  have hfit : prevoutsFit tx index ty prevouts := by
    have hfit := h.fit
    cases prevouts with
    | one k prevout => simpa [prevoutsFit, Prevouts.Fit] using hfit
    | all prevouts => simpa [prevoutsFit, Prevouts.Fit] using hfit
  exact ⟨_, if_pos ⟨h.index_lt, hfit, h.single⟩⟩

/-- The reference sighashes fail for the documented reasons only. -/
theorem documented_sighashEngine : @SighashEngine.Documented types sighashEngine :=
  letI := sighashEngine
  { legacy := fun _ _ _ _ hindex => ⟨_, if_pos hindex⟩
    p2wpkh := fun _ _ _ _ _ hindex hscript => ⟨_, if_pos ⟨hindex, hscript⟩⟩
    p2wsh := fun _ _ _ _ _ hindex => ⟨_, if_pos hindex⟩
    taprootKeySpend := fun _ _ _ _ h => taprootDigest_isOk h _
    taprootScriptSpend := fun _ _ _ _ _ h => taprootDigest_isOk h _ }

/-! ## Taproot inputs -/

/-- The private key of the reference inputs. -/
def trSecret : RefKey where
  secret := .zero 32
  parity := .even

/-- Its x-only public key. -/
def trKey : U8Array 32 :=
  digest trSecret.secret.bytes

/-- An input that spends a pay-to-taproot output by the key path. -/
def trInput (vout : Vout) : Input :=
  { input vout with
    witnessUtxo := some {
      value := (2000 : UInt64)
      scriptPubkey := ScriptBuf.newP2tr (trKey : XOnlyPublicKey) none }
    tapInternalKey := some trKey
    tapKeyOrigins := ({} : BTreeMap XOnlyPublicKey TapKeyOrigin).insert trKey
      ([], (.zero 4, [])) }

/-- Two taproot inputs of which the global map counts one. -/
def trUncounted : Psbt :=
  let p := psbt [trInput 0, trInput 1] [output [0x51]]
  { p with global := { p.global with inputCount := 1 } }

/-- The signer of the PSBT. -/
def trUncountedSigner : Signer where
  psbt := trUncounted
  cache := trUncounted.unsignedTxAt .zero
  unsignedTx_eq := rfl

/-- The seed of an extended private key. -/
def trSeed : U8Array 32 :=
  .zero 32

/-- The key source of its key at the empty path. -/
def trSource : KeySource :=
  (refFingerprint trSeed, [])

/-- The key at the empty path. -/
def trDerived : U8Array 32 :=
  refDerive trSeed []

/-- A key of somebody else. -/
def trClaimed : U8Array 32 :=
  .zero 32

/-- A taproot input that lists the key of somebody else with the key source. -/
def trMislabeledInput : Input :=
  { trInput 0 with
    tapKeyOrigins := ({} : BTreeMap XOnlyPublicKey TapKeyOrigin).insert trClaimed
      ([.zero 32], trSource) }

/-- A PSBT with the input. -/
def trMislabeled : Psbt :=
  psbt [trMislabeledInput] [output [0x51]]

/-- The signer of the PSBT. -/
def trMislabeledSigner : Signer where
  psbt := trMislabeled
  cache := trMislabeled.unsignedTxAt .zero
  unsignedTx_eq := rfl

/-- The signer of the nested pay-to-witness-script-hash input. -/
def shWshSigner : Signer where
  psbt := shWshUnsigned
  cache := shWshUnsigned.unsignedTxAt .zero
  unsignedTx_eq := rfl

end Reference
end RustPsbt
