import LowBand.Lbtp.Pacer
import LowBand.Lib.Bytes
import LowBand.Xfer.Scheduler

/-!
# The frames of encoding packets

`fec.rs` makes a frame of each RaptorQ packet. The codec is outside the repository: an
`EncodingPacket` is a payload id of four bytes and a symbol of `SYMBOL_SIZE` bytes, and it is
serialised as these two in order.

Four constants meet here: the size of a symbol, the payload id, the header of a frame and the limit
of a datagram. A frame of a packet has 1184 bytes of data, so it takes 1186 of the 1181 bytes of a
datagram and makes it 1205 bytes long. `symbol_never_fits` says that the scheduler sends such a
datagram for every packet, and that the pacer refuses every frame of a packet.
-/

namespace LowBand.Xfer

open Lib

/-- `SYMBOL_SIZE`. -/
def symbolSize : ℕ := 1180

/-- The longest datagram of the link. -/
def linkMtu : ℕ := 1200

/-- A RaptorQ encoding packet. -/
structure EncodingPacket where
  /-- The payload id: the source block number and the encoding symbol id. -/
  payloadId : Bytes 4
  /-- The symbol. -/
  symbol : Bytes symbolSize

namespace EncodingPacket

/-- The encoding symbol id: the last three bytes of the payload id, the most significant first. -/
def encodingSymbolId (packet : EncodingPacket) : UInt32 :=
  .ofNat (ofLE (packet.payloadId.val.drop 1).reverse)

/-- The bytes of a packet. -/
def serialize (packet : EncodingPacket) : List UInt8 := packet.payloadId.val ++ packet.symbol.val

/-- A serialised packet is its id and a symbol. -/
theorem length_serialize (packet : EncodingPacket) :
    packet.serialize.length = 4 + symbolSize := by
  simp [serialize]

end EncodingPacket

/-- `FecEncoder`, as far as it names the object that it encodes. -/
structure FecEncoder where
  /-- The transfer object. -/
  objectId : UInt64

/-- `packet_to_frame`. -/
def FecEncoder.packetToFrame (encoder : FecEncoder) (packet : EncodingPacket) : XferFrame :=
  ⟨packet.serialize, encoder.objectId, packet.encodingSymbolId⟩

/-- The length of the datagram that frames are sent in. -/
def datagramBytes (frames : List XferFrame) : ℕ := datagramOverhead + slotBytes frames

/-- The slot of one frame. -/
theorem slotBytes_singleton (f : XferFrame) : slotBytes [f] = frameHeaderOverhead + f.data.length :=
  Nat.add_zero _

/-- A frame alone in the queue, within the headroom and with no voice or input waiting, is sent
alone. -/
theorem tick_singleton {f : XferFrame} {headroom : ℕ} {demand : PacerDemand}
    (hfree : demand.blocksBulk = false) (hdata : f.data ≠ []) (hroom : f.data.length ≤ headroom) :
    BulkTransferScheduler.tick ⟨[f], headroom⟩ demand =
      (.sendAggregated [f], ⟨[], headroom - f.data.length⟩) := by
  have hpos : 0 < f.data.length := List.length_pos_iff.mpr hdata
  have hsome : headroom ≠ 0 := by omega
  simp [BulkTransferScheduler.tick, hfree, hsome, Nat.not_lt.mpr hroom, coalesce]

/-- No frame of a packet can be sent: the scheduler puts it into a datagram beyond its own limit and
that of the link, and the pacer refuses it. -/
theorem symbol_never_fits (encoder : FecEncoder) (packet : EncodingPacket) :
    let f := encoder.packetToFrame packet
    (∀ s demand s', BulkTransferScheduler.tick s demand = (.sendAggregated [f], s') →
      ¬ slotBytes [f] ≤ maxDatagramXferBytes ∧ ¬ datagramBytes [f] ≤ linkMtu) ∧
    (∀ headroom demand, f.data.length ≤ headroom → PacerDemand.blocksBulk demand = false →
      (BulkTransferScheduler.tick ⟨[f], headroom⟩ demand).1 = .sendAggregated [f]) ∧
    ∀ (pacer : Lbtp.Pacer) channel, (pacer.enqueue ⟨channel, f.data⟩).1 = false := by
  intro f
  have hlen : f.data.length = 4 + symbolSize := packet.length_serialize
  -- All three depend on the length of the frame alone.
  refine ⟨fun _ _ _ _ => ?_, fun headroom demand hroom hfree => ?_, fun pacer channel => ?_⟩
  · rw [datagramBytes, slotBytes_singleton, hlen]
    decide
  · have hdata : f.data ≠ [] := by
      rw [← List.length_pos_iff, hlen]
      decide
    rw [tick_singleton hfree hdata hroom]
  · have hlt : Lbtp.maxFrameDataBytes < f.data.length := by
      rw [hlen]
      decide
    rw [Lbtp.Pacer.enqueue_of_lt hlt]

/-- The packet of zeros: a datagram of 1205 bytes, and a refused frame. -/
theorem zero_symbol_refused :
    let f := (FecEncoder.mk 1).packetToFrame ⟨.fill 4 0, .fill symbolSize 0⟩
    (BulkTransferScheduler.tick ⟨[f], 1200⟩ ⟨0, 0⟩).1 = .sendAggregated [f] ∧
      datagramBytes [f] = 1205 ∧ ((Lbtp.Pacer.new 8000000).enqueue ⟨7, f.data⟩).1 = false := by
  intro f
  have hlen : f.data.length = 4 + symbolSize := EncodingPacket.length_serialize _
  have hdata : f.data ≠ [] := by
    rw [← List.length_pos_iff, hlen]
    decide
  have hlt : Lbtp.maxFrameDataBytes < f.data.length := by
    rw [hlen]
    decide
  refine ⟨?_, ?_, ?_⟩
  · rw [tick_singleton rfl hdata (by rw [hlen]; decide)]
  · rw [datagramBytes, slotBytes_singleton, hlen]
    decide
  · rw [Lbtp.Pacer.enqueue_of_lt hlt]

end LowBand.Xfer
