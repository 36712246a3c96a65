import Twd.Machine.Run
import Twd.Mirror.Mirror
import Twd.AddressSpace.AddressSpace
import Twd.Fifo.BoundedQueue
import Twd.Bytes.LittleEndian
import Twd.Tickets.Tickets
import Twd.Cmsg.Cmsg
import Twd.Chars.Chars
import Twd.Ringbuffer.Ringbuffer
import Twd.Ringbuffer.Queue
import Twd.Ringbuffer.Indices
import Twd.Ringbuffer.Mapping
import Twd.Ringbuffer.Proofs.IndicesProofs
import Twd.Ringbuffer.Proofs.QueueProofs
import Twd.Ringbuffer.Proofs.MappingProofs
import Twd.Ringbuffer.Proofs.ThreadsSafetyProofs
import Twd.Ringbuffer.Proofs.ThreadsProgressProofs
import Twd.Ringbuffer.Proofs.RecordsProofs
import Twd.Ringbuffer.Proofs.AloneProofs
import Twd.Ringbuffer.StreamThreads
import Twd.Ringbuffer.Proofs.StreamThreadsProofs
import Twd.Ringbuffer.Proofs.StreamLosslessProofs
import Twd.Ringbuffer.Proofs.CountsProofs
import Twd.Ringbuffer.Proofs.WholeProofs
import Twd.Ringbuffer.Proofs.OldUsedProofs
import Twd.Ringbuffer.TestRingbuffer
import Twd.Ringbuffer.Proofs.TestRingbufferProofs
import Twd.Infbuffer.Infbuffer
import Twd.Infbuffer.Proofs.InfbufferProofs
import Twd.Infbuffer.Proofs.DeliveryProofs
import Twd.Infbuffer.Proofs.OrderProofs
import Twd.Infbuffer.Proofs.FifoProofs
import Twd.Infbuffer.TestMain
import Twd.Infbuffer.Proofs.TestMainProofs
import Twd.Infbuffer.Proofs.TestMainEndProofs
import Twd.Sieve.Sieve
import Twd.Bits.Bits
import Twd.Bits.Proofs.BitsProofs
import Twd.Timers.Timers
import Twd.Timers.Proofs.TimersProofs
import Twd.Blocks.Blocks
import Twd.Util.Timeval
import Twd.Util.Proofs.TimevalProofs
import Twd.Util.Parse
import Twd.Util.Proofs.ParseProofs
import Twd.Util.Proofs.ParseNatProofs
import Twd.Util.Eui
import Twd.Util.Proofs.EuiProofs
import Twd.Util.Prefix
import Twd.Util.Proofs.PrefixProofs
import Twd.Util.Net
import Twd.Util.Proofs.NetProofs
import Twd.Network.Network
import Twd.Network.Proofs.NetworkProofs
import Twd.Main.Main
import Twd.Main.Proofs.MainProofs
import Twd.Protocol.Proofs.ProtocolProofs
import Twd.Protocol.Proofs.ProgressProofs
import Twd.Packet.Proofs.PacketProofs
import Twd.Packet.Proofs.TestSimpleProofs
import Twd.Collector.Proofs.CollectorProofs
import Twd.ParseAddr.Proofs.ParseAddrProofs
import Twd.Setup.Proofs.SetupProofs
import Twd.TwdTime.TwdTime
import Twd.Bitset.Bitset
import Twd.Bitset.Proofs.BitsetProofs
import Twd.Log.Log
import Twd.Log.Proofs.LogProofs
import Twd.Options.Proofs.DiffservProofs
import Twd.Options.Proofs.LongShortProofs
import Twd.Options.Proofs.OutputProofs
import Twd.LastWrite.Keyed
import Twd.Options.Proofs.OrderingProofs
