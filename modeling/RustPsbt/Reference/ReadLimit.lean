import RustPsbt.Encoding.ReadLimit
import RustPsbt.Reference.Codecs

/-!
# Read limits of the reference decoders

Every reference decoder is a scanner behind a buffer, which asks for one byte as long as
the scanner needs more.
-/

namespace RustPsbt
namespace Reference

open PushDecoder

theorem Coded.limits {α : Type} {S : Scanner UInt8 Unit α} {encode : α → Bytes}
    (h : Coded S encode) : (codecOf S encode).decoder.Limits := by
  obtain ⟨Fits, hexact, _⟩ := h.exact
  exact limits_buffered hexact.lawful

attribute [local instance] types codecs lawfulCodecs

theorem lawfulReadLimits : LawfulReadLimits where
  array _ := limits_buffered (exact_array _).lawful
  byteVec := limits_buffered exact_bytes.lawful
  compactSize := limits_buffered exact_limited.lawful
  decoder2 hA hB _ _ := limits_buffered ((Scanner.lawful_ofDecoder hA).mapErr.andThen fun _ =>
    (Scanner.lawful_ofDecoder hB).mapErr.andThen fun _ => Scanner.lawful_pure _)
  exactVec hD _ _ _ :=
    (limits_buffered ((Scanner.lawful_ofDecoder hD).mapErr.replicate _)).except _
  vec hD _ _ := limits_buffered (exact_limited.lawful.mapErr.andThen fun n =>
    (Scanner.lawful_ofDecoder hD).mapErr.replicate n)
  lockTime := coded_lockTime.limits
  amount := coded_amount.limits
  sequence := coded_u32.limits
  txVersion := coded_txVersion.limits
  transaction := coded_transaction.limits
  txOut := coded_txOut.limits
  witness := coded_witness.limits
  txIn := limits_buffered exact_txIn.lawful

end Reference
end RustPsbt
