import RustPsbt.Encoding.TapKeyOrigin
import RustPsbt.Encoding.TapTree
import RustPsbt.Reference.Codecs

/-!
# Exact codecs

The codecs of tap key origins and tap trees, seen from the stream.  A decoder that
returns a value has consumed the length prefix and the announced bytes, however the
stream was cut into chunks, and these bytes say what the value is.

Main results:

- Theorem `decodeChunks_tapKeyOrigin`: tap key origins round trip, and what is decoded is
  encoded in the bytes that were consumed.
- Theorem `tapTree_roundTrip`: tap trees within the length limit round trip, and a
  decoded tree has a leaf for each entry.
-/

namespace RustPsbt

/-! ## Streams in chunks -/

section Generic

variable [BitcoinTypes] [BitcoinCodecs]

omit [BitcoinTypes] [BitcoinCodecs] in
/-- However the stream is cut, a value comes out of a length and the announced bytes. -/
theorem Framed.decodeChunks_eq_some {ε α : Type} {D : PushDecoder UInt8 ε α} (h : Framed D)
    {chunks : List Bytes} {a : α} {taken : Nat} :
    (D.decodeChunks chunks).toOption = some (a, taken) ↔
      ∃ w r, chunks.flatten = frame w ++ r ∧ w.length ≤ compactSizeLimit ∧
        D.Decodes (frame w) a ∧ taken = (frame w).length := by
  cases chunks with
  | nil =>
      constructor
      · intro hsome
        rcases h.strict.early with ⟨e, he⟩
        rw [PushDecoder.decodeChunks, PushDecoder.feed, Result.ok_bind, he] at hsome
        cases hsome
      · rintro ⟨w, r, hnil, _, hdec, _⟩
        have hframe : frame w = [] := (List.append_eq_nil_iff.mp hnil.symm).1
        exact absurd hframe (PushDecoder.Lawful.Decodes.ne_nil h.lawful h.strict hdec)
  | cons chunk chunks =>
      rw [h.lawful.decodeChunks_eq_some, List.flatten_cons]
      constructor
      · rintro ⟨r, hacc, rfl⟩
        rcases h.accepts_iff.mp hacc with ⟨w, hw, hlimit, hdec⟩
        refine ⟨w, r, hw, hlimit, hdec, ?_⟩
        rw [hw, List.length_append, Nat.add_sub_cancel]
      · rintro ⟨w, r, hw, hlimit, hdec, rfl⟩
        refine ⟨r, h.accepts_iff.mpr ⟨w, hw, hlimit, hdec⟩, ?_⟩
        rw [hw, List.length_append, Nat.add_sub_cancel]

/-! ## Tap key origins -/

/-- A tap key origin is decoded out of its encoding.  What is decoded has taken the
length prefix and the declared bytes; they count its leaf hashes, and it is encoded in
them. -/
theorem decodeChunks_tapKeyOrigin [LawfulCodecs] :
    (∀ (origin : TapKeyOrigin) (chunks : List Bytes) (rest : Bytes),
      (tapKeyOriginBytes origin).length ≤ compactSizeLimit →
        chunks.flatten = frame (tapKeyOriginBytes origin) ++ rest →
          (tapKeyOriginDecoder.decodeChunks chunks).toOption =
            some (origin, (frame (tapKeyOriginBytes origin)).length)) ∧
      ∀ (chunks : List Bytes) (origin : TapKeyOrigin) (taken : Nat),
        (tapKeyOriginDecoder.decodeChunks chunks).toOption = some (origin, taken) →
          ∃ (declared count : Nat) (value items rest : Bytes),
            chunks.flatten = compactSize declared ++ (value ++ rest) ∧
              value.length = declared ∧
              taken = (compactSize declared).length + declared ∧
              value = compactSize count ++ items ∧
              origin.1.length = count ∧
              frame (tapKeyOriginBytes origin) = compactSize declared ++ value := by
  constructor
  · intro origin chunks rest hlimit hchunks
    refine framed_tapKeyOrigin.decodeChunks_eq_some.mpr ⟨_, rest, hchunks, hlimit, ?_, rfl⟩
    exact accepts_tapKeyOrigin.mpr ⟨(List.append_nil _).symm, hlimit⟩
  · intro chunks origin taken hsome
    rcases framed_tapKeyOrigin.decodeChunks_eq_some.mp hsome with
      ⟨value, rest, hchunks, hvalue, hdec, rfl⟩
    rcases accepts_tapKeyOrigin.mp hdec with ⟨hframe, hlimit⟩
    have hbytes : value = tapKeyOriginBytes origin :=
      (frame_append_inj hvalue hlimit ((List.append_nil _).trans hframe)).1
    subst hbytes
    refine ⟨(tapKeyOriginBytes origin).length, origin.1.length, tapKeyOriginBytes origin,
      leafHashBytes origin.1 ++ keySourceBytes origin.2, rest, ?_, rfl, ?_, rfl, rfl, rfl⟩
    · rw [hchunks, frame_append]
    · rw [frame, List.length_append]

/-! ## Tap trees -/

/-- The declared length of a tree is the number of its bytes, and within the length limit
the tree is decoded out of them.  Every tree that is decoded has the leaves that the
bytes list. -/
theorem tapTree_roundTrip [LawfulCodecs] :
    (∀ tree : TapTree, (tapTreeEncoder tree).len = (tapTreeEncoder tree).bytes.length) ∧
      (∀ tree : TapTree, (tapTreeEncoder tree).bytes.length ≤ compactSizeLimit →
        tapTreeDecoder.Decodes (frame (tapTreeEncoder tree).bytes) tree) ∧
      ∀ (b r : Bytes) (tree : TapTree), tapTreeDecoder.Accepts b tree r →
        ∃ leaves, b = frame (leaves.flatMap tapLeafBytes) ++ r ∧
          ((scriptLeaves tree).map ScriptLeaf.entry).Perm leaves := by
  refine ⟨len_tapTreeEncoder, fun tree hlimit => ?_, fun b r tree hacc => ?_⟩
  · exact valueCodec_tapTree.decodes_encode hlimit
  · rcases PushDecoder.accepts_wrap.mp hacc with ⟨value, hbytes, htree⟩
    rcases LawfulCodecs.byteVec_accepts.mp hbytes with ⟨rfl, _⟩
    rcases tapTreeOfValue_eq_ok.mp htree with ⟨leaves, rfl, _, hbuild⟩
    exact ⟨leaves, (frame_append _ _).symm, LawfulCodecs.tapTree_leaves hbuild⟩

/-- A tree is decoded out of its encoding only if that is within the length limit. -/
theorem length_le_of_decodes_tapTree [LawfulCodecs] {tree tree' : TapTree}
    (h : tapTreeDecoder.Decodes (frame (tapTreeEncoder tree).bytes) tree')
    (hlt : (tapTreeEncoder tree).bytes.length < 2 ^ 64) :
    (tapTreeEncoder tree).bytes.length ≤ compactSizeLimit := by
  rcases PushDecoder.accepts_wrap.mp h with ⟨value, hbytes, _⟩
  rcases LawfulCodecs.byteVec_accepts.mp hbytes with ⟨heq, hlimit⟩
  have hbound := compactSizeLimit_lt
  rcases compactSize_append_inj hlt (by omega) heq with ⟨hlen, _⟩
  rwa [hlen]

end Generic

section

attribute [local instance] Reference.types Reference.codecs Reference.lawfulCodecs

/-- An origin with a leaf hash and a path step. -/
def Reference.origin : TapKeyOrigin :=
  ([U8Array.zero 32], U8Array.zero 4, [1])

theorem decodeChunks_origin :
    (tapKeyOriginDecoder.decodeChunks
        [(frame (tapKeyOriginBytes Reference.origin)).take 20,
          (frame (tapKeyOriginBytes Reference.origin)).drop 20]).toOption =
      some (Reference.origin, (frame (tapKeyOriginBytes Reference.origin)).length) := by
  have hlimit : (tapKeyOriginBytes Reference.origin).length ≤ compactSizeLimit := by decide
  apply decodeChunks_tapKeyOrigin.1 Reference.origin _ [] hlimit
  simp only [List.flatten_cons, List.flatten_nil, List.append_nil, List.take_append_drop]

/-- A tree of one leaf, and next to it two leaves that are deeper. -/
def Reference.threeLeaves : Reference.Tree where
  leaves := [⟨1, ⟨[0xC0], by decide⟩, [0x53]⟩, ⟨2, ⟨[0xC0], by decide⟩, [0x51, 0x51]⟩,
    ⟨2, ⟨[0xC2], by decide⟩, [0x52]⟩]
  whole := rfl

theorem decodes_threeLeaves :
    tapTreeDecoder.Decodes (frame (tapTreeEncoder Reference.threeLeaves).bytes)
        Reference.threeLeaves ∧
      ∃ leaves, frame (tapTreeEncoder Reference.threeLeaves).bytes =
          frame (leaves.flatMap tapLeafBytes) ++ [] ∧
        ((scriptLeaves Reference.threeLeaves).map ScriptLeaf.entry).Perm leaves := by
  have hdec := tapTree_roundTrip.2.1 Reference.threeLeaves (by decide)
  exact ⟨hdec, tapTree_roundTrip.2.2 _ _ _ hdec⟩

/-- The tree of one leaf with a script of zeros. -/
def Reference.zeros (n : Nat) : Reference.Tree where
  leaves := [⟨0, ⟨[0xC0], by decide⟩, List.replicate n 0⟩]
  whole := rfl

/-- A tree with a script above the length limit is not decoded. -/
theorem not_decodes_zeros :
    ¬tapTreeDecoder.Decodes
      (frame (tapTreeEncoder (Reference.zeros (compactSizeLimit + 1))).bytes)
      (Reference.zeros (compactSizeLimit + 1)) := by
  intro hdec
  have hlen : (tapTreeEncoder (Reference.zeros (compactSizeLimit + 1))).bytes.length =
      compactSizeLimit + 1 + varIntSize (compactSizeLimit + 1) + 1 + 1 := by
    rw [← len_tapTreeEncoder]
    simp [tapTreeEncoder, scriptLeaves, Reference.zeros]
  have hle := length_le_of_decodes_tapTree hdec (by rw [hlen]; decide)
  omega

end

end RustPsbt
