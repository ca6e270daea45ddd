import RustPsbt.Roles.Signer

/-!
# Private keys and key providers

What a signer asks a key provider for, and the providers that come with the
library.  Elliptic curve arithmetic and key derivation are those of `bitcoin`.

Main results:

- Theorems `honest_xpriv`, `honest_xprivs`, `honest_pubkeyMap` and `honest_xonlyMap`:
  the providers of the library answer with derivations and with the keys that were
  asked for.
-/

namespace RustPsbt

/-- `secp256k1::Message`. -/
abbrev Message := U8Array 32

/-- The parity of a point. -/
inductive Parity where
  | even
  | odd
deriving DecidableEq

/-- The other parity. -/
def Parity.other : Parity → Parity
  | even => odd
  | odd => even

theorem Parity.other_eq_of_ne {a b : Parity} (h : a ≠ b) : a.other = b := by
  cases a <;> cases b <;> simp_all [other]

/-- The private keys of `bitcoin` and their signatures. -/
class Secp [BitcoinTypes] where
  /-- `bitcoin::PrivateKey`. -/
  PrivateKey : Type
  /-- `secp256k1::SecretKey`. -/
  SecretKey : Type
  /-- `bitcoin::key::Keypair`. -/
  Keypair : Type
  /-- `secp256k1::ecdsa::Signature`. -/
  RawEcdsa : Type
  /-- `secp256k1::schnorr::Signature`. -/
  RawSchnorr : Type
  /-- `PrivateKey::inner`. -/
  inner : PrivateKey → SecretKey
  /-- `PrivateKey::public_key`. -/
  publicKey : PrivateKey → PublicKey
  /-- `PrivateKey::negate`. -/
  negate : PrivateKey → PrivateKey
  /-- `secp256k1::PublicKey::x_only_public_key`. -/
  xOnlyPublicKey : PublicKey → XOnlyPublicKey × Parity
  /-- `XOnlyPublicKey::public_key`, as a compressed `bitcoin` key. -/
  ofXOnly : XOnlyPublicKey → Parity → PublicKey
  /-- `Keypair::from_secret_key`. -/
  fromSecretKey : SecretKey → Keypair
  /-- `Keypair::tap_tweak` and back. -/
  tapTweak : Keypair → Option TapNodeHash → Keypair
  /-- `Secp256k1::sign_ecdsa`. -/
  signEcdsa : Message → SecretKey → RawEcdsa
  /-- `Secp256k1::sign_schnorr_no_aux_rand`, as without the feature `rand`; with it the source
  calls `sign_schnorr`, which draws fresh randomness. -/
  signSchnorr : Message → Keypair → RawSchnorr
  /-- `ecdsa::Signature`. -/
  ecdsa : RawEcdsa → EcdsaSighashType → EcdsaSignature
  /-- `taproot::Signature`. -/
  taproot : RawSchnorr → TapSighashType → TaprootSignature

/-- The extended private keys of `bitcoin`. -/
class Bip32 [BitcoinTypes] [Secp] where
  /-- `bip32::Xpriv`. -/
  Xpriv : Type
  /-- `bip32::Error`. -/
  Bip32Error : Type
  /-- `Xpriv::fingerprint`. -/
  fingerprint : Xpriv → Fingerprint
  /-- `Xpriv::parent_fingerprint`. -/
  parentFingerprint : Xpriv → Fingerprint
  /-- `Xpriv::child_number`. -/
  childNumber : Xpriv → ChildNumber
  /-- `Xpriv::derive_priv`. -/
  derivePriv : Xpriv → DerivationPath → Except Bip32Error Xpriv
  /-- `Xpriv::to_priv`. -/
  toPriv : Xpriv → Secp.PrivateKey

export Secp (PrivateKey)
export Bip32 (Xpriv Bip32Error)

section Generic

variable [BitcoinTypes] [Secp]

/-- The x-only public key of a private key. -/
def xonlyOf (sk : PrivateKey) : XOnlyPublicKey :=
  (Secp.xOnlyPublicKey (Secp.publicKey sk)).1

/-! ## Key providers -/

/-- `KeyRequest`. -/
inductive KeyRequest where
  | pubkey (pk : PublicKey)
  | bip32 (source : KeySource)
  | xOnlyPubkey (xonly : XOnlyPublicKey)

/-- `GetKey`: a key provider. -/
structure GetKey where
  Error : Type
  getKey : KeyRequest → Except Error (Option PrivateKey)

/-- The key that the signer uses: the one derived, else the one asked for.  Errors
of the provider are swallowed. -/
def GetKey.keyFor (self : GetKey) (source : KeySource) (request : KeyRequest) :
    Option PrivateKey :=
  match self.getKey (.bip32 source) with
  | .ok (some sk) => some sk
  | _ =>
      match self.getKey request with
      | .ok (some sk) => some sk
      | _ => none

/-- The private key is derived by BIP-32 from an extended key with the fingerprint. -/
inductive Derives [Bip32] : KeySource → PrivateKey → Prop where
  | own {xpriv key : Xpriv} {path : DerivationPath}
      (h : Bip32.derivePriv xpriv path = .ok key) :
      Derives (Bip32.fingerprint xpriv, path) (Bip32.toPriv key)
  | parent {xpriv key : Xpriv} {path : DerivationPath}
      (h : Bip32.derivePriv xpriv path = .ok key) :
      Derives (Bip32.parentFingerprint xpriv, Bip32.childNumber xpriv :: path)
        (Bip32.toPriv key)

/-- The provider answers with derivations and with the keys that are asked for. -/
structure GetKey.Honest [Bip32] (k : GetKey) : Prop where
  bip32 : ∀ source sk, k.getKey (.bip32 source) = .ok (some sk) → Derives source sk
  pubkey : ∀ pk sk, k.getKey (.pubkey pk) = .ok (some sk) →
    Secp.xOnlyPublicKey (Secp.publicKey sk) = Secp.xOnlyPublicKey pk
  xOnlyPubkey : ∀ xonly sk, k.getKey (.xOnlyPubkey xonly) = .ok (some sk) →
    xonlyOf sk = xonly

/-- The key is the derived one, or the one asked for where none is derived. -/
theorem GetKey.keyFor_eq_some {self : GetKey} {source : KeySource} {request : KeyRequest}
    {sk : PrivateKey} :
    self.keyFor source request = some sk ↔
      self.getKey (.bip32 source) = .ok (some sk) ∨
        (∀ sk', self.getKey (.bip32 source) ≠ .ok (some sk')) ∧
          self.getKey request = .ok (some sk) := by
  unfold keyFor
  rcases hderived : self.getKey (.bip32 source) with e | _ | sk'
  all_goals
    rcases hasked : self.getKey request with e | _ | sk''
    all_goals simp

/-! ## The providers of the library -/

/-- `GetKeyError`. -/
inductive GetKeyError [Bip32] where
  | bip32 (e : Bip32Error)
  | notSupported

variable [Bip32]

/-- `<Xpriv as GetKey>::get_key`. -/
def xprivGetKey (self : Xpriv) (keyRequest : KeyRequest) :
    Except GetKeyError (Option PrivateKey) :=
  match keyRequest with
  | .pubkey _ | .xOnlyPubkey _ => .error .notSupported
  | .bip32 (fingerprint, path) =>
      if Bip32.fingerprint self = fingerprint then
        match Bip32.derivePriv self path with
        | .ok k => .ok (some (Bip32.toPriv k))
        | .error e => .error (.bip32 e)
      else if Bip32.parentFingerprint self = fingerprint ∧
          path.head? = some (Bip32.childNumber self) then
        match Bip32.derivePriv self path.tail with
        | .ok k => .ok (some (Bip32.toPriv k))
        | .error e => .error (.bip32 e)
      else
        .ok none

/-- `<Vec<Xpriv> as GetKey>::get_key`, also of sets: the first key or error counts. -/
def xprivsGetKey (keyRequest : KeyRequest) :
    List Xpriv → Except GetKeyError (Option PrivateKey)
  | [] => .ok none
  | xpriv :: self =>
      match xprivGetKey xpriv keyRequest with
      | .ok none => xprivsGetKey keyRequest self
      | answer => answer

/-- `<BTreeMap<PublicKey, PrivateKey> as GetKey>::get_key`. -/
def pubkeyMapGetKey (self : BTreeMap PublicKey PrivateKey) (keyRequest : KeyRequest) :
    Except GetKeyError (Option PrivateKey) :=
  match keyRequest with
  | .pubkey pk => .ok self[pk]?
  | .xOnlyPubkey xonly =>
      match self[Secp.ofXOnly xonly .even]? with
      | some key => .ok (some key)
      | none =>
          match self[Secp.ofXOnly xonly .odd]? with
          | some privKey => .ok (some (Secp.negate privKey))
          | none => .ok none
  | .bip32 _ => .error .notSupported

/-- `<BTreeMap<XOnlyPublicKey, PrivateKey> as GetKey>::get_key`. -/
def xonlyMapGetKey (self : BTreeMap XOnlyPublicKey PrivateKey) (keyRequest : KeyRequest) :
    Except GetKeyError (Option PrivateKey) :=
  match keyRequest with
  | .xOnlyPubkey xonly => .ok self[xonly]?
  | .pubkey pk =>
      let (xonly, parity) := Secp.xOnlyPublicKey pk
      match self[xonly]? with
      | some privKey =>
          let (_, computedParity) := Secp.xOnlyPublicKey (Secp.publicKey privKey)
          if computedParity ≠ parity then .ok (some (Secp.negate privKey))
          else .ok (some privKey)
      | none => .ok none
  | .bip32 _ => .error .notSupported

/-- Points on the curve: a compressed key is its x coordinate with its parity, and
negation changes the parity only. -/
structure CurveLaws : Prop where
  xOnlyPublicKey_ofXOnly : ∀ xonly parity,
    Secp.xOnlyPublicKey (Secp.ofXOnly xonly parity) = (xonly, parity)
  xOnlyPublicKey_negate : ∀ sk : PrivateKey,
    Secp.xOnlyPublicKey (Secp.publicKey (Secp.negate sk)) =
      (xonlyOf sk, (Secp.xOnlyPublicKey (Secp.publicKey sk)).2.other)

/-- An extended private key answers with its derivations. -/
theorem xprivGetKey_bip32 {self : Xpriv} {source : KeySource} {sk : PrivateKey}
    (h : xprivGetKey self (.bip32 source) = .ok (some sk)) : Derives source sk := by
  obtain ⟨fingerprint, path⟩ := source
  unfold xprivGetKey at h
  dsimp only at h
  split at h
  · rename_i hfp
    subst hfp
    split at h
    · rename_i k hk
      cases h
      exact .own hk
    · cases h
  · split at h
    · rename_i hparent
      obtain ⟨hfp, hhead⟩ := hparent
      subst hfp
      split at h
      · rename_i k hk
        cases h
        cases path with
        | nil => cases hhead
        | cons child path =>
            cases hhead
            exact .parent hk
      · cases h
    · cases h

/-- An extended private key is an honest provider. -/
theorem honest_xpriv (xpriv : Xpriv) : GetKey.Honest ⟨GetKeyError, xprivGetKey xpriv⟩ where
  bip32 _ _ := xprivGetKey_bip32
  pubkey _ _ h := by cases h
  xOnlyPubkey _ _ h := by cases h

/-- An answer of several extended private keys is an answer of one of them. -/
theorem xprivsGetKey_eq_some {keyRequest : KeyRequest} {xprivs : List Xpriv}
    {sk : PrivateKey} (h : xprivsGetKey keyRequest xprivs = .ok (some sk)) :
    ∃ xpriv ∈ xprivs, xprivGetKey xpriv keyRequest = .ok (some sk) := by
  induction xprivs with
  | nil => cases h
  | cons xpriv xprivs ih =>
      unfold xprivsGetKey at h
      split at h
      · obtain ⟨xpriv', hmem, heq⟩ := ih h
        exact ⟨xpriv', List.mem_cons_of_mem _ hmem, heq⟩
      · exact ⟨xpriv, List.mem_cons_self, h⟩

/-- So are several of them. -/
theorem honest_xprivs (xprivs : List Xpriv) :
    GetKey.Honest ⟨GetKeyError, fun request => xprivsGetKey request xprivs⟩ where
  bip32 source sk h := by
    obtain ⟨xpriv, -, hxpriv⟩ := xprivsGetKey_eq_some h
    exact xprivGetKey_bip32 hxpriv
  pubkey pk sk h := by
    obtain ⟨xpriv, -, hxpriv⟩ := xprivsGetKey_eq_some h
    cases hxpriv
  xOnlyPubkey xonly sk h := by
    obtain ⟨xpriv, -, hxpriv⟩ := xprivsGetKey_eq_some h
    cases hxpriv

/-- A map from public keys to their private keys is an honest provider. -/
theorem honest_pubkeyMap (hcurve : CurveLaws) {self : BTreeMap PublicKey PrivateKey}
    (hself : ∀ pk sk, self[pk]? = some sk → Secp.publicKey sk = pk) :
    GetKey.Honest ⟨GetKeyError, pubkeyMapGetKey self⟩ where
  bip32 _ _ h := by cases h
  pubkey pk sk h := by rw [hself pk sk (Except.ok.inj h)]
  xOnlyPubkey xonly sk h := by
    unfold pubkeyMapGetKey at h
    dsimp only at h
    split at h
    · rename_i key hkey
      cases h
      rw [xonlyOf, hself _ _ hkey, hcurve.xOnlyPublicKey_ofXOnly]
    · split at h
      · rename_i privKey hkey
        cases h
        rw [xonlyOf, hcurve.xOnlyPublicKey_negate, xonlyOf, hself _ _ hkey,
          hcurve.xOnlyPublicKey_ofXOnly]
      · cases h

/-- A map from x-only public keys to their private keys is an honest provider. -/
theorem honest_xonlyMap (hcurve : CurveLaws) {self : BTreeMap XOnlyPublicKey PrivateKey}
    (hself : ∀ xonly sk, self[xonly]? = some sk → xonlyOf sk = xonly) :
    GetKey.Honest ⟨GetKeyError, xonlyMapGetKey self⟩ where
  bip32 _ _ h := by cases h
  xOnlyPubkey xonly sk h := hself xonly sk (Except.ok.inj h)
  pubkey pk sk h := by
    unfold xonlyMapGetKey at h
    dsimp only at h
    split at h
    · rename_i privKey hkey
      have hx : (Secp.xOnlyPublicKey (Secp.publicKey privKey)).1 =
          (Secp.xOnlyPublicKey pk).1 := hself _ _ hkey
      split at h
      · rename_i hparity
        cases h
        rw [hcurve.xOnlyPublicKey_negate, Parity.other_eq_of_ne hparity, xonlyOf, hx]
      · rename_i hparity
        cases h
        exact Prod.ext hx (not_not.mp hparity)
    · cases h

end Generic

end RustPsbt
