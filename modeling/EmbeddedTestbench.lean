import EmbeddedTestbench.Lib.Base128
import EmbeddedTestbench.Lib.Wire
import EmbeddedTestbench.Lib.SlotTable
import EmbeddedTestbench.Lib.Chunks
import EmbeddedTestbench.Lib.Crc
import EmbeddedTestbench.Lib.Stuffing
import EmbeddedTestbench.Nanopb.Stream
import EmbeddedTestbench.Nanopb.Varint
import EmbeddedTestbench.Nanopb.Field
import EmbeddedTestbench.Nanopb.Decode
import EmbeddedTestbench.Nanopb.Containment
import EmbeddedTestbench.Nanopb.Required
import EmbeddedTestbench.Nanopb.Grammar
import EmbeddedTestbench.Nanopb.OStream
import EmbeddedTestbench.Nanopb.Encode
import EmbeddedTestbench.Nanopb.AnyOrder
import EmbeddedTestbench.Nanopb.Merge
import EmbeddedTestbench.Nanopb.RoundTrip
import EmbeddedTestbench.Nanopb.Delimited
import EmbeddedTestbench.Nanopb.Scalars
import EmbeddedTestbench.Nanopb.Repeated
import EmbeddedTestbench.Nanopb.Safety
import EmbeddedTestbench.Hid
import EmbeddedTestbench.HidCodec
import EmbeddedTestbench.ProtoBuff.Marshal
import EmbeddedTestbench.ProtoBuff.Registry
import EmbeddedTestbench.ProtoBuff.Unmarshal
import EmbeddedTestbench.ProtoBuff.Walk
import EmbeddedTestbench.ProtoBuff.Dispatch
import EmbeddedTestbench.ProtoBuff.Progress
import EmbeddedTestbench.ProtoBuff.Malformed
import EmbeddedTestbench.ProtoBuff.NotFound
import EmbeddedTestbench.ProtoBuff.Isolation
import EmbeddedTestbench.PacketSerial.Frame
import EmbeddedTestbench.PacketSerial.Build
import EmbeddedTestbench.PacketSerial.Send
import EmbeddedTestbench.PacketSerial.Delivery
import EmbeddedTestbench.PacketSerial.Bounds
import EmbeddedTestbench.PacketSerial.Integrity
import EmbeddedTestbench.PacketSerial.ErrorDetection
import EmbeddedTestbench.PacketSerial.CrcField
import EmbeddedTestbench.ProtoBuff.Capacity
import EmbeddedTestbench.EndToEnd
import EmbeddedTestbench.Session
import EmbeddedTestbench.Cobs.Encode
import EmbeddedTestbench.Cobs.Decode
import EmbeddedTestbench.Cobs.Reduced
