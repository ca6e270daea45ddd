import RustPsbt.Library.DecoderCombinators
import RustPsbt.Primitives.CompactSize
import RustPsbt.Map.Key

/-!
# Codecs of other crates

The decoders, encoders and constructors the source takes from `bitcoin` and
`bitcoin_consensus_encoding` (`BitcoinCodecs`), and what it relies on
(`LawfulCodecs`): decoders are chunk independent, take what they say and never
panic; primitive codecs round trip inside the length limit; keys and control
blocks have one serialization.
-/

namespace RustPsbt

/-! ## Decoders of other crates -/

/-- A decoder that is chunk independent, takes at least one symbol and never panics. -/
structure PushDecoder.Sound {β ε α : Type} (D : PushDecoder β ε α) : Prop where
  lawful : D.Lawful
  strict : D.Strict
  safe : D.Safe

/-- The `Encode` and `Decode` implementations of a type. -/
structure Codec (ε α : Type) where
  decoder : PushDecoder UInt8 ε α
  encode : α → Bytes

/-- A codec that round trips inside the length limit. -/
structure Codec.Lawful {ε α : Type} (c : Codec ε α) : Prop where
  sound : c.decoder.Sound
  accepts_encode : ∀ {a}, (c.encode a).length ≤ compactSizeLimit →
    ∀ r, c.decoder.Accepts (c.encode a ++ r) a r
  /-- A value is not encoded longer than it was decoded from. -/
  length_encode_le : ∀ {b a}, c.decoder.Decodes b a → (c.encode a).length ≤ b.length

/-- `bitcoin_consensus_encoding::VecDecoderError`. -/
inductive VecDecoderError (ε₀ ε : Type) where
  | length (e : ε₀)
  | item (e : ε)

/-- `bitcoin_consensus_encoding::Decoder2Error`. -/
inductive Decoder2Error (ε₁ ε₂ : Type) where
  | first (e : ε₁)
  | second (e : ε₂)

/-- `bitcoin_consensus_encoding::DecodeError`. -/
inductive DecodeError (ε : Type) where
  | parse (e : ε)
  | unconsumed

/-- `hashes::FromSliceError`. -/
structure FromSliceError where
  expected : Nat
  got : Nat
deriving DecidableEq

/-- `from_slice` of a hash type of `n` bytes. -/
def hashFromSlice (n : Nat) (b : Bytes) : Result FromSliceError (U8Array n) :=
  .okOr ⟨n, b.length⟩ (U8Array.ofSlice n b)

theorem hashFromSlice_eq_ok {n : Nat} {b : Bytes} {h : U8Array n} :
    hashFromSlice n b = .ok h ↔ b = h.bytes := by
  rw [hashFromSlice, Result.okOr_eq_ok, U8Array.ofSlice_eq_some]

/-- A leaf that `TapTree::script_leaves` yields. -/
structure ScriptLeaf [BitcoinTypes] where
  script : ScriptBuf
  version : LeafVersion
  /-- `merkle_branch().len()`. -/
  merkleBranchLen : Nat

/-- Code of other crates that the codecs of the source are built from. -/
class BitcoinCodecs [BitcoinTypes] where
  /-- The errors of other crates. -/
  ExtError : Type
  /-- `ArrayDecoder<N>`. -/
  arrayDecoder (n : Nat) : PushDecoder UInt8 ExtError (U8Array n)
  /-- `ByteVecDecoder`, and the consensus decoder of `ScriptBuf`. -/
  byteVecDecoder : PushDecoder UInt8 ExtError Bytes
  /-- `CompactSizeDecoder`. -/
  compactSizeDecoder : PushDecoder UInt8 ExtError Nat
  /-- `CompactSizeU64Decoder`. -/
  compactSizeU64Decoder : PushDecoder UInt8 ExtError UInt64
  /-- `Decoder2<A, B>`. -/
  decoder2 {ε₁ ε₂ α β : Type} (A : PushDecoder UInt8 ε₁ α) (B : PushDecoder UInt8 ε₂ β) :
    PushDecoder UInt8 (Decoder2Error ε₁ ε₂) (α × β)
  /-- `ExactVecDecoderWith<D>`. -/
  exactVecDecoderWith {ε α : Type} (D : PushDecoder UInt8 ε α) (n : Nat) :
    PushDecoder UInt8 (VecDecoderError ExtError ε) (List α)
  /-- `VecDecoderWith<D>`. -/
  vecDecoderWith {ε α : Type} (D : PushDecoder UInt8 ε α) :
    PushDecoder UInt8 (VecDecoderError ExtError ε) (List α)
  /-- `decode_from_slice_with_decoder`. -/
  decodeFromSlice {ε α : Type} (D : PushDecoder UInt8 ε α) (b : Bytes) :
    Result (DecodeError ε) α
  /-- The consensus codec of `absolute::LockTime`. -/
  lockTimeCodec : Codec ExtError LockTime
  /-- The consensus codec of `Amount`. -/
  amountCodec : Codec ExtError Amount
  /-- The consensus codec of `Sequence`. -/
  sequenceCodec : Codec ExtError Sequence
  /-- The consensus codec of `transaction::Version`. -/
  txVersionCodec : Codec ExtError TxVersion
  /-- The consensus codec of `Transaction`. -/
  transactionCodec : Codec ExtError Transaction
  /-- The consensus codec of `TxOut`. -/
  txOutCodec : Codec ExtError TxOut
  /-- The consensus codec of `Witness`. -/
  witnessCodec : Codec ExtError Witness
  /-- `TxInDecoder`. -/
  txInDecoder : PushDecoder UInt8 ExtError TxIn
  /-- `Transaction::total_size`. -/
  totalSize : Transaction → Nat
  /-- `Witness::size`. -/
  witnessSize : Witness → Nat
  /-- `PublicKey::from_slice`. -/
  publicKeyFromSlice : Bytes → Except ExtError PublicKey
  /-- `PublicKey::compressed`. -/
  isCompressed : PublicKey → Bool
  /-- `PublicKey::inner.serialize()`. -/
  serialize : PublicKey → U8Array 33
  /-- `PublicKey::inner.serialize_uncompressed()`. -/
  serializeUncompressed : PublicKey → U8Array 65
  /-- `XOnlyPublicKey::from_slice`. -/
  xOnlyFromSlice : Bytes → Except ExtError XOnlyPublicKey
  /-- `XOnlyPublicKey::serialize`. -/
  xOnlySerialize : XOnlyPublicKey → U8Array 32
  /-- `CompressedPublicKey::from_slice`. -/
  compressedFromSlice : Bytes → Except ExtError CompressedPublicKey
  /-- `Xpub::decode`. -/
  xpubDecode : Bytes → Except ExtError Xpub
  /-- `Xpub::encode`. -/
  xpubEncode : Xpub → U8Array 78
  /-- `ecdsa::Signature::from_slice`. -/
  ecdsaFromSlice : Bytes → Except ExtError EcdsaSignature
  /-- `ecdsa::Signature::serialize`. -/
  ecdsaSerialize : EcdsaSignature → Bytes
  /-- `taproot::Signature::from_slice`. -/
  taprootFromSlice : Bytes → Except ExtError TaprootSignature
  /-- The field `signature` of `taproot::Signature`. -/
  taprootSignature : TaprootSignature → U8Array 64
  /-- The field `sighash_type` of `taproot::Signature` as a byte; zero is `Default`. -/
  taprootSighashType : TaprootSignature → UInt8
  /-- `LeafVersion::from_consensus`. -/
  leafVersionFromConsensus : UInt8 → Except ExtError LeafVersion
  /-- `LeafVersion::to_consensus`. -/
  leafVersionToConsensus : LeafVersion → UInt8
  /-- `ControlBlock::decode`. -/
  controlBlockDecode : Bytes → Except ExtError ControlBlock
  /-- `TaprootBuilder`. -/
  TaprootBuilder : Type
  /-- `TaprootBuilder::new`. -/
  taprootBuilder : TaprootBuilder
  /-- `TaprootBuilder::add_leaf_with_ver`. -/
  addLeafWithVer : TaprootBuilder → UInt8 → ScriptBuf → LeafVersion →
    Except ExtError TaprootBuilder
  /-- `TapTree::try_from`. -/
  tapTreeTryFrom : TaprootBuilder → Except ExtError TapTree
  /-- `TapTree::script_leaves`. -/
  scriptLeaves : TapTree → List ScriptLeaf

export BitcoinCodecs (ExtError arrayDecoder byteVecDecoder compactSizeDecoder
  compactSizeU64Decoder decoder2 exactVecDecoderWith vecDecoderWith lockTimeCodec amountCodec
  sequenceCodec txVersionCodec transactionCodec txOutCodec witnessCodec txInDecoder totalSize
  witnessSize publicKeyFromSlice xOnlyFromSlice xOnlySerialize compressedFromSlice
  xpubDecode xpubEncode ecdsaFromSlice ecdsaSerialize taprootFromSlice taprootSignature
  taprootSighashType leafVersionFromConsensus leafVersionToConsensus controlBlockDecode
  TaprootBuilder taprootBuilder addLeafWithVer tapTreeTryFrom scriptLeaves)

/-! ## Serialized keys -/

section

variable [BitcoinTypes] [BitcoinCodecs]

/-- The bytes of `PublicKeyEncoder`. -/
def publicKeyBytes (key : PublicKey) : Bytes :=
  if BitcoinCodecs.isCompressed key then (BitcoinCodecs.serialize key).bytes
  else (BitcoinCodecs.serializeUncompressed key).bytes

/-- The bytes of `TaprootSignatureEncoder`: the sighash byte of `Default` is suppressed. -/
def taprootSignatureBytes (sig : TaprootSignature) : Bytes :=
  (taprootSignature sig).bytes ++
    if taprootSighashType sig = 0 then [] else [taprootSighashType sig]

/-- The bytes of `ControlBlockEncoder`. -/
def controlBlockBytes (block : ControlBlock) : Bytes :=
  (leafVersionToConsensus block.leafVersion ||| block.outputKeyParity.toUInt8) ::
    ((xOnlySerialize block.internalKey).bytes ++
      block.merkleBranch.hashes.flatMap U8Array.bytes)

/-- Add leaves to a builder in order. -/
def addLeaves (builder : TaprootBuilder) (leaves : List (UInt8 × LeafVersion × ScriptBuf)) :
    Except ExtError TaprootBuilder :=
  leaves.foldlM (fun builder leaf => addLeafWithVer builder leaf.1 leaf.2.2 leaf.2.1) builder

/-- The depth, version and script that `TapTreeEncoder` writes for a leaf. -/
def ScriptLeaf.entry (leaf : ScriptLeaf) : UInt8 × LeafVersion × ScriptBuf :=
  (UInt8.ofNat leaf.merkleBranchLen, leaf.version, leaf.script)

end

/-! ## What the source relies on -/

/-- The documented behaviour of the code of other crates. -/
class LawfulCodecs [BitcoinTypes] [BitcoinCodecs] : Prop where
  array_sound : ∀ {n : Nat}, 0 < n → (arrayDecoder n).Sound
  array_accepts : ∀ {n : Nat} {b r : Bytes} {a : U8Array n},
    (arrayDecoder n).Accepts b a r ↔ b = a.bytes ++ r
  byteVec_sound : byteVecDecoder.Sound
  byteVec_accepts : ∀ {b r v : Bytes}, byteVecDecoder.Accepts b v r ↔
    b = compactSize v.length ++ (v ++ r) ∧ v.length ≤ compactSizeLimit
  compactSize_sound : compactSizeDecoder.Sound
  compactSize_accepts : ∀ {b r : Bytes} {n : Nat}, compactSizeDecoder.Accepts b n r ↔
    b = compactSize n ++ r ∧ n ≤ compactSizeLimit
  /-- A compact size is ready once the bytes that its first byte announces are there; its
  value is only checked at the end. -/
  compactSize_push : ∀ (tag : UInt8) (b : Bytes),
    ∃ s, compactSizeDecoder.push compactSizeDecoder.init (tag :: b) =
      .ok (s, (tag :: b).drop (compactSizeWidth tag),
        if compactSizeWidth tag ≤ (tag :: b).length then .ready else .needsMore)
  compactSizeU64_sound : compactSizeU64Decoder.Sound
  compactSizeU64_accepts : ∀ {b r : Bytes} {n : UInt64},
    compactSizeU64Decoder.Accepts b n r ↔ b = compactSize n.toNat ++ r
  decoder2_lawful : ∀ {ε₁ ε₂ α β : Type} {A : PushDecoder UInt8 ε₁ α}
    {B : PushDecoder UInt8 ε₂ β}, A.Lawful → B.Lawful → (decoder2 A B).Lawful
  decoder2_meaning : ∀ {ε₁ ε₂ α β : Type} {A : PushDecoder UInt8 ε₁ α}
    {B : PushDecoder UInt8 ε₂ β}, A.Lawful → B.Lawful →
    (decoder2 A B).meaning = A.meaning.andThen fun a => B.meaning.andThen fun b =>
      .ofResult (ε := Unit) (.ok (a, b))
  exactVec_lawful : ∀ {ε α : Type} {D : PushDecoder UInt8 ε α} {n : Nat},
    D.Lawful → D.Strict → (exactVecDecoderWith D n).Lawful
  exactVec_meaning : ∀ {ε α : Type} {D : PushDecoder UInt8 ε α} {n : Nat},
    D.Lawful → D.Strict → (exactVecDecoderWith D n).meaning = D.meaning.replicate n
  vec_lawful : ∀ {ε α : Type} {D : PushDecoder UInt8 ε α},
    D.Lawful → D.Strict → (vecDecoderWith D).Lawful ∧ (vecDecoderWith D).Strict
  vec_meaning : ∀ {ε α : Type} {D : PushDecoder UInt8 ε α}, D.Lawful → D.Strict →
    (vecDecoderWith D).meaning = compactSizeDecoder.meaning.andThen D.meaning.replicate
  decodeFromSlice_eq : ∀ {ε α : Type} {D : PushDecoder UInt8 ε α} (b : Bytes),
    D.Lawful → D.Strict → BitcoinCodecs.decodeFromSlice D b =
      (D.run b).mapErr DecodeError.parse >>= fun x =>
        if x.2 = [] then .ok x.1 else .err .unconsumed
  lockTime_lawful : lockTimeCodec.Lawful
  amount_lawful : amountCodec.Lawful
  sequence_lawful : sequenceCodec.Lawful
  sequence_length : ∀ s, (sequenceCodec.encode s).length = 4
  txVersion_lawful : txVersionCodec.Lawful
  /-- A `Transaction` stands for one that consensus decoding takes, as those of a block are:
  the decoder refuses a transaction without outputs, with an input twice, or with a null
  outpoint or a short script outside of a coinbase. -/
  transaction_lawful : transactionCodec.Lawful
  totalSize_eq : ∀ tx, totalSize tx = (transactionCodec.encode tx).length
  txOut_lawful : txOutCodec.Lawful
  txOut_encode : ∀ o : TxOut, txOutCodec.encode o =
    amountCodec.encode o.value ++ (compactSize o.scriptPubkey.length ++ o.scriptPubkey)
  witness_lawful : witnessCodec.Lawful
  witnessSize_eq : ∀ w, witnessSize w = (witnessCodec.encode w).length
  txIn_sound : txInDecoder.Sound
  /-- A transaction input is its outpoint, its script behind its length, and its sequence;
  the witness is not part of it. -/
  txIn_accepts : ∀ {b r : Bytes} {i : TxIn}, txInDecoder.Accepts b i r ↔
    b = i.previousOutput.txid.bytes ++ ((u32ToLeBytes i.previousOutput.vout).bytes ++
      (compactSize i.scriptSig.length ++ (i.scriptSig ++
        (sequenceCodec.encode i.sequence ++ r)))) ∧
      i.scriptSig.length ≤ compactSizeLimit ∧ i.witness = []
  publicKey_roundtrip : ∀ k, publicKeyFromSlice (publicKeyBytes k) = .ok k
  publicKey_length : ∀ {b k}, publicKeyFromSlice b = .ok k →
    (publicKeyBytes k).length = b.length
  xOnly_fromSlice : ∀ {b k}, xOnlyFromSlice b = .ok k ↔ b = (xOnlySerialize k).bytes
  /-- A key of 33 bytes has one serialization; the form of 65 bytes is read as well. -/
  compressed_fromSlice : ∀ {b : U8Array 33} {k}, compressedFromSlice b.bytes = .ok k ↔
    b = compressedToBytes k
  compressed_length : ∀ {b k}, compressedFromSlice b = .ok k → 33 ≤ b.length
  xpub_decode : ∀ {b k}, xpubDecode b = .ok k ↔ b = (xpubEncode k).bytes
  ecdsa_roundtrip : ∀ s, ecdsaFromSlice (ecdsaSerialize s) = .ok s
  ecdsa_length : ∀ s, (ecdsaSerialize s).length ≤ 73
  taproot_roundtrip : ∀ s, taprootFromSlice (taprootSignatureBytes s) = .ok s
  leafVersion_fromConsensus : ∀ {v l}, leafVersionFromConsensus v = .ok l ↔
    v = leafVersionToConsensus l
  controlBlock_decode : ∀ {b c}, controlBlockDecode b = .ok c ↔ b = controlBlockBytes c
  /-- A builder makes a tree again from the leaves of the tree, in their order. -/
  tapTree_rebuild : ∀ t : TapTree,
    addLeaves taprootBuilder ((scriptLeaves t).map ScriptLeaf.entry) >>= tapTreeTryFrom = .ok t
  /-- The leaves of a built tree are the leaves it was built from. -/
  tapTree_leaves : ∀ {ls : List (UInt8 × LeafVersion × ScriptBuf)} {t : TapTree},
    addLeaves taprootBuilder ls >>= tapTreeTryFrom = .ok t →
      ((scriptLeaves t).map ScriptLeaf.entry).Perm ls

/-! ## Rows of values -/

section

variable [BitcoinTypes] [BitcoinCodecs] [LawfulCodecs] {ε α : Type} {D : PushDecoder UInt8 ε α}

/-- A fixed number of values, one after the other. -/
theorem accepts_exactVec (h : D.Lawful) (hstrict : D.Strict) {n : Nat} {b r : Bytes}
    {as : List α} : (exactVecDecoderWith D n).Accepts b as r ↔
      as.length = n ∧ ∃ ws, b = ws.flatten ++ r ∧ List.Forall₂ D.Decodes ws as := by
  rw [← PushDecoder.meaning_eq_ok, LawfulCodecs.exactVec_meaning h hstrict,
    PushDecoder.replicate_eq_ok h]

/-- A count and as many values. -/
theorem accepts_vec (h : D.Lawful) (hstrict : D.Strict) {b r : Bytes} {as : List α} :
    (vecDecoderWith D).Accepts b as r ↔ as.length ≤ compactSizeLimit ∧
      ∃ ws, b = compactSize as.length ++ (ws.flatten ++ r) ∧ List.Forall₂ D.Decodes ws as := by
  rw [← PushDecoder.meaning_eq_ok, LawfulCodecs.vec_meaning h hstrict, Parser.andThen_eq_ok]
  simp only [PushDecoder.meaning_eq_ok, LawfulCodecs.compactSize_accepts,
    PushDecoder.replicate_eq_ok h]
  constructor
  · rintro ⟨n, m, ⟨rfl, hlimit⟩, rfl, ws, rfl, hall⟩
    exact ⟨hlimit, ws, rfl, hall⟩
  · rintro ⟨hlimit, ws, rfl, hall⟩
    exact ⟨as.length, _, ⟨rfl, hlimit⟩, rfl, ws, rfl, hall⟩

theorem safe_vec (h : D.Lawful) (hstrict : D.Strict) (hsafe : D.Safe) :
    (vecDecoderWith D).Safe := by
  rw [PushDecoder.safe_iff, LawfulCodecs.vec_meaning h hstrict]
  intro b
  apply Parser.Returns.andThen (PushDecoder.safe_iff.mp LawfulCodecs.compactSize_sound.safe b)
  intro n r _
  exact PushDecoder.returns_replicate h hsafe n r

end

end RustPsbt
