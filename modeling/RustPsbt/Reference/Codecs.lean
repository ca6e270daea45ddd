import RustPsbt.Library.ExactScanner
import RustPsbt.Primitives.Codecs
import RustPsbt.Reference.Types

/-!
# Reference codecs

Decoders and encoders of the reference types.  Every decoder buffers its input until its
scanner finds a whole value.

Main results:

- Theorem `Reference.lawfulCodecs`: the reference codecs behave as the source relies on.
-/

namespace RustPsbt
namespace Reference

attribute [local instance] Reference.types

/-! ## Numbers and bytes -/

/-- Scan a number in `w` little-endian bytes. -/
def leScanner {α : Type} (w : Nat) (make : Nat → α) : Scanner UInt8 Unit α :=
  .take w () fun b => .ok (make (leNat b))

/-- Scan `n` bytes. -/
def arrayScanner (n : Nat) : Scanner UInt8 Unit (U8Array n) :=
  .take n () fun b => Result.okOr () (U8Array.ofSlice n b)

/-- Scan a compact size; its value is checked once all its bytes are there. -/
def compactSizeScanner {α : Type} (make : Nat → Option α) : Scanner UInt8 Unit α :=
  .announced compactSizeWidth () fun b =>
    Result.okOr () ((readCompactSize b).bind fun x => make x.1)

/-- A number up to the limit. -/
def limited (n : Nat) : Option Nat :=
  if n ≤ compactSizeLimit then some n else none

/-- Scan a length and as many bytes. -/
def bytesScanner : Scanner UInt8 Unit Bytes :=
  (compactSizeScanner limited).andThen fun n => .take n () .ok

/-- Scan a count and as many values. -/
def listScanner {α : Type} (S : Scanner UInt8 Unit α) : Scanner UInt8 Unit (List α) :=
  (compactSizeScanner limited).andThen S.replicate

/-- The bytes of a byte string behind its length. -/
def encodeBytes (b : Bytes) : Bytes :=
  RustPsbt.compactSize b.length ++ b

/-- The bytes of values behind their count. -/
def encodeList {α : Type} (encode : α → Bytes) (as : List α) : Bytes :=
  RustPsbt.compactSize as.length ++ as.flatMap encode

theorem exact_le {α : Type} {w : Nat} {make : Nat → α} {value : α → Nat}
    (hvalue : ∀ n, n < 256 ^ w → value (make n) = n) (hmake : ∀ a, make (value a) = a)
    (hlt : ∀ a, value a < 256 ^ w) :
    (leScanner w make).Exact (fun a => leBytes w (value a)) fun _ => True := by
  refine Scanner.exact_take (fun _ => trivial) (fun {c a} hc => ?_) fun _ _ => length_leBytes _ _
  have hc' : leNat c < 256 ^ w := hc ▸ leNat_lt c
  constructor
  · intro h
    obtain rfl : make (leNat c) = a := Except.ok.inj h
    exact ⟨by rw [hvalue _ hc', leBytes_leNat hc], trivial⟩
  · rintro ⟨rfl, -⟩
    rw [leNat_leBytes (hlt a), hmake]

theorem exact_array (n : Nat) :
    (arrayScanner n).Exact U8Array.bytes fun _ => True := by
  refine Scanner.exact_take (fun _ => Result.returns_okOr _ _) (fun {c a} _ => ?_)
    fun a _ => a.length_eq
  rw [Result.okOr_eq_ok, U8Array.ofSlice_eq_some, and_true]

theorem compactSizeWidth_pos (tag : UInt8) : 0 < compactSizeWidth tag := by
  unfold compactSizeWidth
  split_ifs <;> decide

theorem exact_compactSize {α : Type} {f : Nat → Option α} {v : α → Nat}
    (hmake : ∀ {n a}, f n = some a → v a = n)
    (hlt : ∀ {a}, f (v a) = some a → v a < 2 ^ 64) :
    (compactSizeScanner f).Exact (fun a => RustPsbt.compactSize (v a))
      fun a => f (v a) = some a := by
  refine Scanner.exact_announced compactSizeWidth_pos (fun _ => Result.returns_okOr _ _)
    (fun {tag c a} hc => ?_) fun a ha => ?_
  · rw [Result.okOr_eq_ok, Option.bind_eq_some_iff]
    constructor
    · rintro ⟨⟨n, m⟩, hread, hn⟩
      obtain rfl := hmake hn
      obtain ⟨heq, -⟩ := readCompactSize_eq_some.mp hread
      obtain ⟨tag', rest, hcs, hwidth⟩ := compactSize_eq_cons (v a)
      have htag : tag = tag' := by
        rw [hcs, List.cons_append] at heq
        exact (List.cons.inj heq).1
      have hm : m = [] := by
        apply List.length_eq_zero_iff.mp
        have hlen := congrArg List.length heq
        rw [hc, htag, hwidth, List.length_append] at hlen
        omega
      rw [heq, hm, List.append_nil]
      exact ⟨rfl, hn⟩
    · rintro ⟨heq, ha⟩
      have hread := readCompactSize_compactSize (hlt ha) []
      rw [List.append_nil, ← heq] at hread
      exact ⟨_, hread, ha⟩
  · obtain ⟨tag, rest, hcs, hwidth⟩ := compactSize_eq_cons (v a)
    exact ⟨tag, rest, hcs, by rw [← hcs, hwidth]⟩

/-! ## Byte strings and lists -/

theorem limited_eq_some {n m : Nat} : limited n = some m ↔ n = m ∧ m ≤ compactSizeLimit := by
  unfold limited
  split_ifs with h
  · rw [Option.some_inj]
    exact ⟨fun hn => ⟨hn, hn ▸ h⟩, fun hn => hn.1⟩
  · simp only [false_iff]
    rintro ⟨rfl, hm⟩
    exact h hm

theorem exact_limited :
    (compactSizeScanner limited).Exact RustPsbt.compactSize (· ≤ compactSizeLimit) := by
  have hexact := exact_compactSize (f := limited) (v := id)
    (fun h => (limited_eq_some.mp h).1.symm)
    (fun h => lt_of_le_of_lt (limited_eq_some.mp h).2 compactSizeLimit_lt)
  refine hexact.congr (fun n => ?_) fun _ _ => rfl
  rw [limited_eq_some, id, and_iff_right rfl]

theorem exact_bytes : bytesScanner.Exact encodeBytes fun b => b.length ≤ compactSizeLimit := by
  have htake : ∀ n, (Scanner.take n () .ok : Scanner UInt8 Unit Bytes).Exact id
      fun b => True ∧ b.length = n := by
    intro n
    refine Scanner.exact_take (fun _ => trivial) (fun {c b} hc => ?_) fun b hb => hb.2
    constructor
    · intro h
      obtain rfl : c = b := Except.ok.inj h
      exact ⟨rfl, trivial, hc⟩
    · rintro ⟨rfl, -⟩
      rfl
  refine (exact_limited.andThen htake).congr (fun b => ?_) fun _ _ => rfl
  rw [and_true]

theorem exact_list {α : Type} {S : Scanner UInt8 Unit α} {encode : α → Bytes}
    {Fits : α → Prop} (h : S.Exact encode Fits) :
    (listScanner S).Exact (encodeList encode) fun as =>
      as.length ≤ compactSizeLimit ∧ ∀ a ∈ as, Fits a := by
  have hrest : ∀ n, (S.replicate n).Exact (fun as => as.flatMap encode)
      fun as => (∀ a ∈ as, Fits a) ∧ as.length = n := by
    intro n
    exact (h.replicate n).congr (fun as => And.comm) fun _ _ => rfl
  exact exact_limited.andThen hrest

/-! ## Encodings inside the length limit -/

/-- The scanner takes the encodings, at least those inside the length limit, and needs a
byte. -/
structure Coded {α : Type} (S : Scanner UInt8 Unit α) (encode : α → Bytes) : Prop where
  exact : ∃ Fits, S.Exact encode Fits ∧ ∀ a, (encode a).length ≤ compactSizeLimit → Fits a
  strict : S.Strict

namespace Coded

variable {α γ : Type} {S : Scanner UInt8 Unit α} {T : Scanner UInt8 Unit γ}
  {encode : α → Bytes} {encodeT : γ → Bytes}

theorem ne_nil (h : Coded S encode) (a : α) : encode a ≠ [] := by
  obtain ⟨Fits, hexact, hfits⟩ := h.exact
  obtain ⟨e, he⟩ := h.strict
  intro hnil
  have ha : Fits a := hfits a (by rw [hnil]; exact Nat.zero_le _)
  have haccepts : S.Accepts [] a [] := hexact.accepts.mpr ⟨by rw [hnil, List.nil_append], ha⟩
  rw [Scanner.Accepts, he] at haccepts
  cases haccepts

theorem pair (h : Coded S encode) (hT : Coded T encodeT) :
    Coded (S.pair T) fun c => encode c.1 ++ encodeT c.2 := by
  obtain ⟨Fits, hexact, hfits⟩ := h.exact
  obtain ⟨FitsT, hexactT, hfitsT⟩ := hT.exact
  refine ⟨⟨_, hexact.pair hexactT, fun c hc => ?_⟩, h.strict.andThen⟩
  rw [List.length_append] at hc
  exact ⟨hfits c.1 (by omega), hfitsT c.2 (by omega)⟩

theorem map (h : Coded S encode) (f : α → γ) (back : γ → α) (hf : ∀ a, back (f a) = a)
    (hback : ∀ c, f (back c) = c) : Coded (S.map f) fun c => encode (back c) := by
  obtain ⟨Fits, hexact, hfits⟩ := h.exact
  refine ⟨⟨fun c => Fits (back c), hexact.map (fun a ha => ?_) fun c hc => ?_, ?_⟩,
    h.strict.andThen⟩
  · exact ⟨(hf a).symm ▸ ha, hf a⟩
  · exact ⟨hc, hback c⟩
  · exact fun c hc => hfits (back c) hc

theorem list (h : Coded S encode) : Coded (listScanner S) (encodeList encode) := by
  obtain ⟨Fits, hexact, hfits⟩ := h.exact
  refine ⟨⟨_, exact_list hexact, fun as has => ?_⟩, Scanner.strict_announced.andThen⟩
  rw [encodeList, List.length_append] at has
  have hcount := length_le_length_flatMap (fun a => List.length_pos_iff.mpr (h.ne_nil a)) as
  refine ⟨by omega, fun a ha => hfits a ?_⟩
  have hitem := length_le_length_flatMap_of_mem (f := encode) ha
  omega

theorem le {w : Nat} {make : Nat → α} {value : α → Nat} (hw : 0 < w)
    (hvalue : ∀ n, n < 256 ^ w → value (make n) = n) (hmake : ∀ a, make (value a) = a)
    (hlt : ∀ a, value a < 256 ^ w) : Coded (leScanner w make) fun a => leBytes w (value a) :=
  ⟨⟨_, exact_le hvalue hmake hlt, fun _ _ => trivial⟩, Scanner.strict_take hw⟩

theorem array {n : Nat} (hn : 0 < n) : Coded (arrayScanner n) U8Array.bytes :=
  ⟨⟨_, exact_array n, fun _ _ => trivial⟩, Scanner.strict_take hn⟩

theorem bytes : Coded bytesScanner encodeBytes := by
  refine ⟨⟨_, exact_bytes, fun b hb => ?_⟩, Scanner.strict_announced.andThen⟩
  rw [encodeBytes, List.length_append] at hb
  omega

end Coded

/-- The codec of a scanner and its encoding. -/
def codecOf {α : Type} (S : Scanner UInt8 Unit α) (encode : α → Bytes) : Codec Unit α where
  decoder := buffered S
  encode := encode

theorem sound_buffered {α : Type} {S : Scanner UInt8 Unit α} {encode : α → Bytes}
    {Fits : α → Prop} (h : S.Exact encode Fits) (hstrict : S.Strict) : (buffered S).Sound where
  lawful := PushDecoder.lawful_buffered h.lawful
  strict := PushDecoder.strict_buffered hstrict
  safe := PushDecoder.safe_buffered_of_exact h

theorem Coded.lawful {α : Type} {S : Scanner UInt8 Unit α} {encode : α → Bytes}
    (h : Coded S encode) : (codecOf S encode).Lawful := by
  obtain ⟨Fits, hexact, hfits⟩ := h.exact
  refine ⟨sound_buffered hexact h.strict, fun {a} ha r => ?_, fun {b a} hb => ?_⟩
  · exact (PushDecoder.accepts_buffered_of_exact hexact).mpr ⟨rfl, hfits a ha⟩
  · obtain ⟨rfl, -⟩ := (PushDecoder.accepts_buffered_of_exact hexact).mp hb
    rw [List.append_nil]
    exact le_refl _

/-! ## Transactions -/

/-- Scan an amount. -/
def amountScanner : Scanner UInt8 Unit UInt64 :=
  leScanner 8 UInt64.ofNat

/-- Scan a sequence. -/
def u32Scanner : Scanner UInt8 Unit UInt32 :=
  leScanner 4 UInt32.ofNat

/-- Scan a transaction version. -/
def txVersionScanner : Scanner UInt8 Unit TxVersion :=
  leScanner 4 fun n => (UInt32.ofNat n).toInt32

/-- Scan a lock time. -/
def lockTimeScanner : Scanner UInt8 Unit LockTime :=
  leScanner 4 fun n => LockTime.fromConsensus (UInt32.ofNat n)

/-- Scan a transaction output. -/
def txOutScanner : Scanner UInt8 Unit TxOut :=
  (amountScanner.pair bytesScanner).map fun x => ⟨x.1, x.2⟩

/-- Scan the parts of a transaction input. -/
def txInPartsScanner : Scanner UInt8 Unit (Txid × UInt32 × Bytes × Sequence) :=
  (arrayScanner 32).pair (u32Scanner.pair (bytesScanner.pair u32Scanner))

/-- A transaction input of its parts. -/
def txInOfParts (witness : Witness) (x : Txid × UInt32 × Bytes × Sequence) : TxIn where
  previousOutput := ⟨x.1, x.2.1⟩
  scriptSig := x.2.2.1
  sequence := x.2.2.2
  witness := witness

/-- The parts of a transaction input. -/
def txInParts (i : TxIn) : Txid × UInt32 × Bytes × Sequence :=
  (i.previousOutput.txid, i.previousOutput.vout, i.scriptSig, i.sequence)

/-- Scan a transaction input without its witness. -/
def txInScanner : Scanner UInt8 Unit TxIn :=
  txInPartsScanner.map (txInOfParts [])

/-- Scan a witness. -/
def witnessScanner : Scanner UInt8 Unit Witness :=
  listScanner bytesScanner

/-- Scan a transaction.  The witnesses stand behind their inputs, not behind the outputs. -/
def transactionScanner : Scanner UInt8 Unit Transaction :=
  (txVersionScanner.pair
    ((listScanner ((txInPartsScanner.pair witnessScanner).map fun x =>
        txInOfParts x.2 x.1)).pair
      ((listScanner txOutScanner).pair lockTimeScanner))).map fun x =>
    ⟨x.1, x.2.2.2, x.2.1, x.2.2.1⟩

def encodeAmount (v : UInt64) : Bytes :=
  leBytes 8 v.toNat

def encodeU32 (n : UInt32) : Bytes :=
  leBytes 4 n.toNat

def encodeTxVersion (v : TxVersion) : Bytes :=
  leBytes 4 v.toUInt32.toNat

def encodeLockTime (l : LockTime) : Bytes :=
  leBytes 4 l.toConsensusU32.toNat

def encodeTxOut (o : TxOut) : Bytes :=
  encodeAmount o.value ++ encodeBytes o.scriptPubkey

def encodeTxInParts (x : Txid × UInt32 × Bytes × Sequence) : Bytes :=
  x.1.bytes ++ (encodeU32 x.2.1 ++ (encodeBytes x.2.2.1 ++ encodeU32 x.2.2.2))

def encodeWitness (w : Witness) : Bytes :=
  encodeList encodeBytes w

def encodeTransaction (tx : Transaction) : Bytes :=
  encodeTxVersion tx.version ++
    (encodeList (fun i => encodeTxInParts (txInParts i) ++ encodeWitness i.witness) tx.input ++
      (encodeList encodeTxOut tx.output ++ encodeLockTime tx.lockTime))

theorem exact_u32 : u32Scanner.Exact encodeU32 fun _ => True :=
  exact_le (fun _ hn => UInt32.toNat_ofNat_of_lt' hn) (fun _ => UInt32.ofNat_toNat)
    UInt32.toNat_lt

theorem coded_amount : Coded amountScanner encodeAmount :=
  .le (by decide) (fun n hn => UInt64.toNat_ofNat_of_lt' hn) (fun _ => UInt64.ofNat_toNat)
    UInt64.toNat_lt

theorem coded_u32 : Coded u32Scanner encodeU32 :=
  .le (by decide) (fun n hn => UInt32.toNat_ofNat_of_lt' hn) (fun _ => UInt32.ofNat_toNat)
    UInt32.toNat_lt

theorem coded_txVersion : Coded txVersionScanner encodeTxVersion :=
  .le (by decide) (fun n hn => UInt32.toNat_ofNat_of_lt' hn) (fun v => by simp)
    fun v => v.toUInt32.toNat_lt

theorem coded_lockTime : Coded lockTimeScanner encodeLockTime :=
  .le (by decide) (fun n hn => by simpa using UInt32.toNat_ofNat_of_lt' hn) (fun l => by simp)
    fun l => l.toConsensusU32.toNat_lt

theorem coded_txOut : Coded txOutScanner encodeTxOut :=
  (coded_amount.pair .bytes).map (fun x => (⟨x.1, x.2⟩ : TxOut))
    (fun o : TxOut => (o.value, o.scriptPubkey)) (fun _ => rfl) fun _ => rfl

theorem coded_txInParts : Coded txInPartsScanner encodeTxInParts :=
  (Coded.array (by decide)).pair (coded_u32.pair (Coded.bytes.pair coded_u32))

theorem coded_witness : Coded witnessScanner encodeWitness :=
  Coded.bytes.list

theorem coded_txInWitness :
    Coded ((txInPartsScanner.pair witnessScanner).map fun x => txInOfParts x.2 x.1)
      fun i => encodeTxInParts (txInParts i) ++ encodeWitness i.witness :=
  (coded_txInParts.pair coded_witness).map (fun x => txInOfParts x.2 x.1)
    (fun i => (txInParts i, i.witness)) (fun _ => rfl) fun _ => rfl

theorem coded_transaction : Coded transactionScanner encodeTransaction :=
  (coded_txVersion.pair
    (coded_txInWitness.list.pair (coded_txOut.list.pair coded_lockTime))).map
    (fun x => (⟨x.1, x.2.2.2, x.2.1, x.2.2.1⟩ : Transaction))
    (fun tx : Transaction => (tx.version, tx.input, tx.output, tx.lockTime)) (fun _ => rfl)
    fun _ => rfl

theorem exact_txIn : txInScanner.Exact (fun i => encodeTxInParts (txInParts i))
    fun i => i.scriptSig.length ≤ compactSizeLimit ∧ i.witness = [] := by
  have hparts := (exact_array 32).pair (exact_u32.pair (exact_bytes.pair exact_u32))
  refine Scanner.Exact.map hparts (fun x hx => ⟨⟨hx.2.2.1, rfl⟩, rfl⟩) fun i hi => ?_
  refine ⟨⟨trivial, trivial, hi.1, trivial⟩, ?_⟩
  have hwitness : txInOfParts i.witness (txInParts i) = i := rfl
  rw [hi.2] at hwitness
  exact hwitness

/-! ## Control blocks -/

/-- A property of bytes, checked for each of them. -/
theorem forall_byte {P : UInt8 → Prop} (h : ∀ n < 256, P (UInt8.ofNat n)) (v : UInt8) :
    P v := by
  have hv := h v.toNat v.toNat_lt
  rwa [UInt8.ofNat_toNat] at hv

/-- The byte of a leaf version. -/
def leafVersionByte (version : Shaped isLeafVersion) : UInt8 :=
  version.bytes.head?.getD 0

theorem leafVersion_bytes (version : Shaped isLeafVersion) :
    version.bytes = [leafVersionByte version] := by
  have hshape := version.shaped
  unfold leafVersionByte
  unfold isLeafVersion at hshape
  split at hshape
  · rename_i v heq
    rw [heq]
    rfl
  · cases hshape

/-- Scan a leaf version with a parity in its lowest bit. -/
def leafTagScanner : Scanner UInt8 Unit (Shaped isLeafVersion × Bool) :=
  .take 1 () fun b => match b with
    | [tag] => Result.okOr () ((Shaped.ofBytes isLeafVersion [tag &&& 0xfe]).map fun version =>
        (version, tag &&& 1 == 1))
    | _ => .err ()

theorem exact_leafTag :
    leafTagScanner.Exact (fun x => [leafVersionByte x.1 ||| x.2.toUInt8]) fun _ => True := by
  refine Scanner.exact_take (fun c => ?_) (fun {c x} hc => ?_) fun _ _ => rfl
  · split
    · exact Result.returns_okOr _ _
    · trivial
  · obtain ⟨tag, rfl⟩ := List.length_eq_one_iff.mp hc
    have hjoin : ∀ tag : UInt8, (tag &&& 0xfe) ||| (tag &&& 1 == 1).toUInt8 = tag :=
      forall_byte (by decide +kernel)
    have hversion : ∀ v : UInt8, isLeafVersion [v] = true → ∀ parity : Bool,
        (v ||| parity.toUInt8) &&& 0xfe = v ∧ ((v ||| parity.toUInt8) &&& 1 == 1) = parity :=
      forall_byte (by decide +kernel)
    obtain ⟨version, parity⟩ := x
    simp only [Result.okOr_eq_ok, Option.map_eq_some_iff, Shaped.ofBytes_eq_some, and_true,
      Prod.mk.injEq, List.cons.injEq]
    have hbytes := leafVersion_bytes version
    constructor
    · rintro ⟨version', hv, rfl, rfl⟩
      rw [hbytes] at hv
      rw [← (List.cons.inj hv).1, hjoin]
    · rintro rfl
      have hv := hversion (leafVersionByte version) (hbytes ▸ version.shaped) parity
      refine ⟨version, ?_, rfl, hv.2⟩
      rw [hbytes, hv.1]

/-- Scan a control block with `n` hashes. -/
def controlBlockScanner (n : Nat) :
    Scanner UInt8 Unit ((Shaped isLeafVersion × Bool) × U8Array 32 × List TapNodeHash) :=
  leafTagScanner.pair ((arrayScanner 32).pair ((arrayScanner 32).replicate n))

/-- Read a control block; its length says how many hashes it has. -/
def readControlBlock (b : Bytes) : Option ControlBlock :=
  match controlBlockScanner ((b.length - 33) / 32) b with
  | .done (.ok x) [] =>
      if h : x.2.2.length ≤ 128 then some ⟨x.1.1, x.1.2, x.2.1, ⟨x.2.2, h⟩⟩ else none
  | _ => none

/-! ## Keys and signatures -/

/-- A value, if there is one. -/
def parsed {α : Type} (o : Option α) : Except Unit α :=
  o.elim (.error ()) .ok

theorem parsed_eq_ok {α : Type} {o : Option α} {a : α} : parsed o = .ok a ↔ o = some a := by
  cases o <;> simp [parsed]

/-- The compressed serialization of a key. -/
def compressedBytes (k : Shaped fun b => isCompressed b || isUncompressed b) : U8Array 33 :=
  ((U8Array.ofSlice 33 k.bytes).orElse fun _ => U8Array.ofSlice 33
    ((if (k.bytes.getLast?.getD 0) % 2 = 0 then 2 else 3) :: (k.bytes.drop 1).take 32)).getD
    (.zero 33)

/-- The uncompressed serialization of a key; there is no curve to find the second coordinate
of a compressed key. -/
def uncompressedBytes (k : Shaped fun b => isCompressed b || isUncompressed b) : U8Array 65 :=
  (U8Array.ofSlice 65 k.bytes).getD (.zero 65)

/-- The signature without its sighash byte. -/
def schnorrBytes (s : Shaped isTaprootSignature) : U8Array 64 :=
  (U8Array.ofSlice 64 (s.bytes.take 64)).getD (.zero 64)

/-- The sighash byte of a signature. -/
def schnorrSighash (s : Shaped isTaprootSignature) : UInt8 :=
  (s.bytes.drop 64).head?.getD 0

/-! ## The codecs -/

/-- The reference codecs. -/
@[reducible]
def codecs : BitcoinCodecs where
  ExtError := Unit
  arrayDecoder n := buffered (arrayScanner n)
  byteVecDecoder := buffered bytesScanner
  compactSizeDecoder := buffered (compactSizeScanner limited)
  compactSizeU64Decoder := buffered (compactSizeScanner fun n =>
    if n < 2 ^ 64 then some (UInt64.ofNat n) else none)
  decoder2 A B := buffered
    (((Scanner.ofDecoder A).mapErr .first).pair ((Scanner.ofDecoder B).mapErr .second))
  exactVecDecoderWith D n := buffered (((Scanner.ofDecoder D).mapErr .item).replicate n)
  vecDecoderWith D := buffered (((compactSizeScanner limited).mapErr .length).andThen
    ((Scanner.ofDecoder D).mapErr .item).replicate)
  decodeFromSlice D b := (D.run b).mapErr DecodeError.parse >>= fun x =>
    if x.2 = [] then .ok x.1 else .err .unconsumed
  lockTimeCodec := codecOf lockTimeScanner encodeLockTime
  amountCodec := codecOf amountScanner encodeAmount
  sequenceCodec := codecOf u32Scanner encodeU32
  txVersionCodec := codecOf txVersionScanner encodeTxVersion
  transactionCodec := codecOf transactionScanner encodeTransaction
  txOutCodec := codecOf txOutScanner encodeTxOut
  witnessCodec := codecOf witnessScanner encodeWitness
  txInDecoder := buffered txInScanner
  totalSize tx := (encodeTransaction tx).length
  witnessSize w := (encodeWitness w).length
  publicKeyFromSlice b := parsed (Shaped.ofBytes _ b)
  isCompressed k := Reference.isCompressed k.bytes
  serialize := compressedBytes
  serializeUncompressed := uncompressedBytes
  xOnlyFromSlice b := parsed (U8Array.ofSlice 32 b)
  xOnlySerialize k := k
  compressedFromSlice b := parsed (Shaped.ofBytes _ (compressed b))
  xpubDecode b := parsed (U8Array.ofSlice 78 b)
  xpubEncode k := k
  ecdsaFromSlice b := parsed (Shaped.ofBytes _ b)
  ecdsaSerialize s := s.bytes
  taprootFromSlice b := parsed (Shaped.ofBytes _ (withoutDefaultSighash b))
  taprootSignature := schnorrBytes
  taprootSighashType := schnorrSighash
  leafVersionFromConsensus v := parsed (Shaped.ofBytes _ [v])
  leafVersionToConsensus := leafVersionByte
  controlBlockDecode b := parsed (readControlBlock b)
  TaprootBuilder := List Leaf
  taprootBuilder := []
  addLeafWithVer builder depth script version := .ok (builder ++ [⟨depth, version, script⟩])
  tapTreeTryFrom builder := parsed (if h : isTree builder = true then some ⟨builder, h⟩ else none)
  scriptLeaves t := t.leaves.map fun leaf => ⟨leaf.script, leaf.version, leaf.depth.toNat⟩

/-! ## Their laws -/

attribute [local instance] Reference.codecs

theorem push_compactSize (tag : UInt8) (b : Bytes) :
    ∃ s, compactSizeDecoder.push compactSizeDecoder.init (tag :: b) =
      .ok (s, (tag :: b).drop (compactSizeWidth tag),
        if compactSizeWidth tag ≤ (tag :: b).length then .ready else .needsMore) := by
  change ∃ s, (buffered (compactSizeScanner limited)).push (.waiting []) (tag :: b) = _
  rw [PushDecoder.push_waiting, List.nil_append]
  by_cases h : compactSizeWidth tag ≤ (tag :: b).length
  · have hscan : compactSizeScanner limited (tag :: b) = .done _ _ := if_pos h
    rw [hscan, if_pos h]
    exact ⟨_, rfl⟩
  · have hscan : compactSizeScanner limited (tag :: b) = .more _ := if_neg h
    rw [hscan, if_neg h, List.drop_eq_nil_of_le (by omega)]
    exact ⟨_, rfl⟩

theorem compactSizeU64_accepts {b r : Bytes} {n : UInt64} :
    compactSizeU64Decoder.Accepts b n r ↔ b = RustPsbt.compactSize n.toNat ++ r := by
  have hmake : ∀ m a, (if m < 2 ^ 64 then some (UInt64.ofNat m) else none) = some a →
      a.toNat = m := by
    intro m a h
    split_ifs at h with hm
    · rw [← Option.some_inj.mp h, UInt64.toNat_ofNat_of_lt' hm]
  have hexact := exact_compactSize (v := UInt64.toNat) (fun {m a} h => hmake m a h)
    fun {a} _ => a.toNat_lt
  refine (PushDecoder.accepts_buffered_of_exact hexact).trans ⟨fun h => h.1, fun h => ⟨h, ?_⟩⟩
  rw [if_pos n.toNat_lt, UInt64.ofNat_toNat]

theorem compactSizeU64_sound : compactSizeU64Decoder.Sound := by
  have hmake : ∀ m a, (if m < 2 ^ 64 then some (UInt64.ofNat m) else none) = some a →
      a.toNat = m := by
    intro m a h
    split_ifs at h with hm
    · rw [← Option.some_inj.mp h, UInt64.toNat_ofNat_of_lt' hm]
  exact sound_buffered (exact_compactSize (v := UInt64.toNat) (fun {m a} h => hmake m a h)
    fun {a} _ => a.toNat_lt) Scanner.strict_announced

section Rows

variable {ε ε₁ ε₂ α β : Type} {A : PushDecoder UInt8 ε₁ α} {B : PushDecoder UInt8 ε₂ β}
  {D : PushDecoder UInt8 ε α}

theorem decoder2_meaning (hA : A.Lawful) (hB : B.Lawful) : (decoder2 A B).meaning =
    A.meaning.andThen fun a => B.meaning.andThen fun b => .ofResult (ε := Unit) (.ok (a, b)) := by
  change (buffered _).meaning = _
  rw [PushDecoder.meaning_buffered, Scanner.pair, Scanner.parser_andThen, Scanner.parser_mapErr,
    Scanner.parser_ofDecoder hA]
  congr 1
  funext a
  rw [Scanner.parser_andThen, Scanner.parser_mapErr, Scanner.parser_ofDecoder hB]
  rfl

theorem exactVec_meaning (hD : D.Lawful) (n : Nat) :
    (exactVecDecoderWith D n).meaning = D.meaning.replicate n := by
  change (buffered _).meaning = _
  rw [PushDecoder.meaning_buffered, Scanner.parser_replicate, Scanner.parser_mapErr,
    Scanner.parser_ofDecoder hD]

theorem vec_meaning (hD : D.Lawful) : (vecDecoderWith D).meaning =
    compactSizeDecoder.meaning.andThen D.meaning.replicate := by
  change (buffered _).meaning = (buffered (compactSizeScanner limited)).meaning.andThen _
  rw [PushDecoder.meaning_buffered, PushDecoder.meaning_buffered, Scanner.parser_andThen,
    Scanner.parser_mapErr]
  congr 1
  funext n
  rw [Scanner.parser_replicate, Scanner.parser_mapErr, Scanner.parser_ofDecoder hD]

end Rows

theorem publicKey_bytes (k : PublicKey) : RustPsbt.publicKeyBytes k = k.bytes := by
  have hshape := k.shaped
  change (if isCompressed k.bytes = true then (compressedBytes k).bytes
    else (uncompressedBytes k).bytes) = k.bytes
  rw [Bool.or_eq_true] at hshape
  split_ifs with h
  · unfold isCompressed at h
    have hlen : k.bytes.length = 33 := by simp_all
    simp [compressedBytes, U8Array.ofSlice, hlen]
  · have hlen : k.bytes.length = 65 := by
      rcases hshape with hshape | hshape
      · exact absurd hshape h
      · unfold isUncompressed at hshape
        simp_all
    simp [uncompressedBytes, U8Array.ofSlice, hlen]

/-- A key of 33 bytes is read as it is. -/
theorem compressed_of_length_eq {b : Bytes} (h : b.length = 33) : compressed b = b := by
  simp [compressed, isUncompressed, h]

/-- The bytes of a key that is read are its compressed form or longer. -/
theorem le_length_of_isCompressed {b : Bytes} (h : isCompressed (compressed b) = true) :
    33 ≤ b.length := by
  by_cases huncompressed : isUncompressed b = true
  · simp only [isUncompressed, Bool.and_eq_true, beq_iff_eq] at huncompressed
    omega
  · rw [compressed, if_neg huncompressed] at h
    simp only [isCompressed, Bool.and_eq_true, beq_iff_eq] at h
    omega

/-- The sighash byte of a signature of 65 bytes is not zero. -/
theorem getLast?_ne_zero {b : Bytes} (h : taprootSighashBytes.any fun v => b.getLast? == some v) :
    b.getLast? ≠ some 0 := by
  intro hzero
  rw [hzero] at h
  cases h

/-- A signature is read as it is. -/
theorem withoutDefaultSighash_eq (s : TaprootSignature) :
    withoutDefaultSighash s.bytes = s.bytes := by
  have hshape := s.shaped
  simp only [isTaprootSignature, Bool.or_eq_true, beq_iff_eq, Bool.and_eq_true] at hshape
  refine if_neg fun hzero => ?_
  rcases hshape with hlen | ⟨-, hany⟩
  · omega
  · exact getLast?_ne_zero hany hzero.2

theorem taprootSignature_bytes (s : TaprootSignature) :
    taprootSignatureBytes s = s.bytes := by
  have hshape := s.shaped
  change (schnorrBytes s).bytes ++ (if schnorrSighash s = 0 then [] else [schnorrSighash s]) =
    s.bytes
  simp only [isTaprootSignature, Bool.or_eq_true, beq_iff_eq, Bool.and_eq_true] at hshape
  have htake : (s.bytes.take 64).length = 64 := by
    rw [List.length_take]
    omega
  have hbytes : (schnorrBytes s).bytes = s.bytes.take 64 := by
    simp only [schnorrBytes, U8Array.ofSlice, dif_pos htake, Option.getD_some]
  rw [hbytes]
  rcases hshape with hlen | ⟨hlen, hany⟩
  · have hsighash : schnorrSighash s = 0 := by
      rw [schnorrSighash, List.drop_eq_nil_of_le (by omega)]
      rfl
    rw [if_pos hsighash, List.append_nil, List.take_of_length_le (by omega)]
  · have hdrop : (s.bytes.drop 64).length = 1 := by
      rw [List.length_drop, hlen]
    obtain ⟨v, hv⟩ := List.length_eq_one_iff.mp hdrop
    have hsplit : s.bytes = s.bytes.take 64 ++ [v] := by
      rw [← hv, List.take_append_drop]
    have hsighash : schnorrSighash s = v := by
      rw [schnorrSighash, hv]
      rfl
    have hv0 : v ≠ 0 := by
      have hlast := getLast?_ne_zero hany
      rw [hsplit, List.getLast?_concat] at hlast
      exact fun h => hlast (congrArg some h)
    rw [hsighash, if_neg hv0, ← hsplit]

theorem exact_controlBlock (n : Nat) : (controlBlockScanner n).Exact
    (fun x => [leafVersionByte x.1.1 ||| x.1.2.toUInt8] ++
      (x.2.1.bytes ++ x.2.2.flatMap U8Array.bytes))
    fun x => True ∧ True ∧ x.2.2.length = n ∧ ∀ a ∈ x.2.2, True :=
  exact_leafTag.pair ((exact_array 32).pair ((exact_array 32).replicate n))

theorem controlBlock_decode {b : Bytes} {c : ControlBlock} :
    controlBlockDecode b = .ok c ↔ b = controlBlockBytes c := by
  refine parsed_eq_ok.trans ⟨fun h => ?_, fun h => ?_⟩
  · unfold readControlBlock at h
    split at h
    · rename_i x hscan
      obtain ⟨hb, -⟩ := (exact_controlBlock _).accepts.mp hscan
      split_ifs at h with hlen
      rw [hb, List.append_nil, ← Option.some_inj.mp h]
      rfl
    · cases h
  · have hlen : (b.length - 33) / 32 = c.merkleBranch.hashes.length := by
      rw [h, controlBlockBytes, List.length_cons, List.length_append,
        U8Array.length_flatMap_bytes, U8Array.length_eq]
      omega
    have hscan : controlBlockScanner ((b.length - 33) / 32) b = .done
        (.ok ((c.leafVersion, c.outputKeyParity), c.internalKey, c.merkleBranch.hashes)) [] := by
      refine (exact_controlBlock _).accepts.mpr ⟨?_, trivial, trivial, hlen.symm, fun _ _ => trivial⟩
      rw [h, List.append_nil]
      rfl
    rw [readControlBlock, hscan]
    exact dif_pos c.merkleBranch.length_le

/-- Leaves are added at the end. -/
theorem addLeaves_eq (builder : List Leaf) (ls : List (UInt8 × LeafVersion × ScriptBuf)) :
    addLeaves builder ls = .ok (builder ++ ls.map fun leaf => ⟨leaf.1, leaf.2.1, leaf.2.2⟩) := by
  induction ls generalizing builder with
  | nil => exact congrArg Except.ok (List.append_nil builder).symm
  | cons leaf ls ih =>
      have hstep : addLeaves builder (leaf :: ls) =
          addLeaves (builder ++ [⟨leaf.1, leaf.2.1, leaf.2.2⟩]) ls := rfl
      rw [hstep, ih, List.append_assoc]
      rfl

theorem entry_leaves (t : TapTree) :
    ((scriptLeaves t).map ScriptLeaf.entry).map (fun leaf => (⟨leaf.1, leaf.2.1, leaf.2.2⟩ : Leaf)) =
      t.leaves := by
  change ((t.leaves.map _).map ScriptLeaf.entry).map _ = t.leaves
  rw [List.map_map, List.map_map]
  refine (List.map_congr_left fun leaf _ => ?_).trans (List.map_id _)
  simp [ScriptLeaf.entry]

theorem lawfulCodecs : LawfulCodecs where
  array_sound hn := sound_buffered (exact_array _) (Scanner.strict_take hn)
  array_accepts := by
    intro n b r a
    exact (PushDecoder.accepts_buffered_of_exact (exact_array n)).trans (and_true _).to_iff
  byteVec_sound := sound_buffered exact_bytes Coded.bytes.strict
  byteVec_accepts := by
    intro b r v
    rw [← List.append_assoc]
    exact PushDecoder.accepts_buffered_of_exact exact_bytes
  compactSize_sound := sound_buffered exact_limited Scanner.strict_announced
  compactSize_accepts := PushDecoder.accepts_buffered_of_exact exact_limited
  compactSize_push := push_compactSize
  compactSizeU64_sound := compactSizeU64_sound
  compactSizeU64_accepts := compactSizeU64_accepts
  decoder2_lawful hA hB := PushDecoder.lawful_buffered
    ((Scanner.lawful_ofDecoder hA).mapErr.andThen fun _ =>
      (Scanner.lawful_ofDecoder hB).mapErr.andThen fun _ => Scanner.lawful_pure _)
  decoder2_meaning := decoder2_meaning
  exactVec_lawful hD _ := PushDecoder.lawful_buffered
    ((Scanner.lawful_ofDecoder hD).mapErr.replicate _)
  exactVec_meaning hD _ := exactVec_meaning hD _
  vec_lawful hD _ := ⟨PushDecoder.lawful_buffered (exact_limited.lawful.mapErr.andThen fun n =>
    (Scanner.lawful_ofDecoder hD).mapErr.replicate n),
    PushDecoder.strict_buffered (Scanner.strict_announced.mapErr.andThen)⟩
  vec_meaning hD _ := vec_meaning hD
  decodeFromSlice_eq _ _ _ := rfl
  lockTime_lawful := coded_lockTime.lawful
  amount_lawful := coded_amount.lawful
  sequence_lawful := coded_u32.lawful
  sequence_length _ := length_leBytes 4 _
  txVersion_lawful := coded_txVersion.lawful
  transaction_lawful := coded_transaction.lawful
  totalSize_eq _ := rfl
  txOut_lawful := coded_txOut.lawful
  txOut_encode _ := rfl
  witness_lawful := coded_witness.lawful
  witnessSize_eq _ := rfl
  txIn_sound := sound_buffered exact_txIn coded_txInParts.strict.andThen
  txIn_accepts := by
    intro b r i
    refine (PushDecoder.accepts_buffered_of_exact exact_txIn).trans ?_
    simp only [encodeTxInParts, encodeBytes, encodeU32, txInParts, List.append_assoc]
    rfl
  publicKey_roundtrip k := parsed_eq_ok.mpr (Shaped.ofBytes_eq_some.mpr (publicKey_bytes k))
  publicKey_length := by
    intro b k h
    rw [publicKey_bytes, Shaped.ofBytes_eq_some.mp (parsed_eq_ok.mp h)]
  xOnly_fromSlice := parsed_eq_ok.trans U8Array.ofSlice_eq_some
  compressed_fromSlice := by
    intro b k
    refine parsed_eq_ok.trans (Shaped.ofBytes_eq_some.trans ?_)
    rw [compressed_of_length_eq b.length_eq, U8Array.ext_iff]
    rfl
  compressed_length := by
    intro b k h
    exact le_length_of_isCompressed (Shaped.ofBytes_eq_some.mp (parsed_eq_ok.mp h) ▸ k.shaped)
  xpub_decode := parsed_eq_ok.trans U8Array.ofSlice_eq_some
  ecdsa_roundtrip _ := parsed_eq_ok.mpr (Shaped.ofBytes_eq_some.mpr rfl)
  ecdsa_length s := by
    have hshape := s.shaped
    simp only [isEcdsaSignature, Bool.and_eq_true, decide_eq_true_eq] at hshape
    exact hshape.2
  taproot_roundtrip s :=
    parsed_eq_ok.mpr (Shaped.ofBytes_eq_some.mpr
      ((congrArg withoutDefaultSighash (taprootSignature_bytes s)).trans
        (withoutDefaultSighash_eq s)))
  leafVersion_fromConsensus := by
    intro v l
    refine parsed_eq_ok.trans (Shaped.ofBytes_eq_some.trans ?_)
    rw [leafVersion_bytes l, List.cons.injEq, and_iff_left rfl]
    rfl
  controlBlock_decode := controlBlock_decode
  tapTree_rebuild t := by
    change addLeaves ([] : List Leaf) _ >>= _ = _
    rw [addLeaves_eq, entry_leaves]
    exact parsed_eq_ok.mpr (dif_pos t.whole)
  tapTree_leaves := by
    intro ls t h
    change addLeaves ([] : List Leaf) _ >>= _ = _ at h
    rw [addLeaves_eq] at h
    have htree := parsed_eq_ok.mp h
    split_ifs at htree with hwhole
    rw [← Option.some_inj.mp htree]
    refine .of_eq ?_
    change (List.map _ (List.map _ _)).map _ = ls
    simp [ScriptLeaf.entry, Function.comp_def]

end Reference
end RustPsbt
