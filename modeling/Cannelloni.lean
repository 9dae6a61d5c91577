import Cannelloni.Lib.Ring
import Cannelloni.Lib.Bytes
import Cannelloni.Lib.Run
import Cannelloni.Lib.Machine
import Cannelloni.Lib.Fifo
import Cannelloni.Lib.Store
import Cannelloni.Lib.Sweep
import Cannelloni.Lib.Crc
import Cannelloni.Lib.Linked
import Cannelloni.Lib.Packing
import Cannelloni.Lib.Markers
import Cannelloni.Lib.Channel
import Cannelloni.Lib.Framing
import Cannelloni.Lib.TimerQueue
import Cannelloni.Frame
import Cannelloni.Queue
import Cannelloni.FrameFifo
import Cannelloni.Handle
import Cannelloni.Decoder
import Cannelloni.Encoder
import Cannelloni.Drivers.Can
import Cannelloni.Drivers.CanSend
import Cannelloni.Drivers.Mdio
import Cannelloni.Drivers.MdioRegisters
import Cannelloni.CanReceive
import Cannelloni.CanTransmit
import Cannelloni.Conservation
import Cannelloni.Delivery
import Cannelloni.ArrivalOrder
import Cannelloni.Gateway
import Cannelloni.Drain
import Cannelloni.Isolation
import Cannelloni.Bounded
import Cannelloni.Fragmentation
import Cannelloni.Layout
import Cannelloni.Bridge
import Cannelloni.Interop
import Cannelloni.Decoders
import Cannelloni.RoundTrip
import Cannelloni.MailboxWrite
import Cannelloni.Grammar
import Cannelloni.ReadBounds
import Cannelloni.BridgeBounds
import Cannelloni.Runner
import Cannelloni.EndToEnd
import Cannelloni.MailboxLoss
import Cannelloni.BusOutput
import Cannelloni.Accesses
import Cannelloni.Drivers.CanBase
import Cannelloni.Drivers.Mailboxes
import Cannelloni.Drivers.Spi
import Cannelloni.SwitchConfig.Checksum
import Cannelloni.SwitchConfig.Mem
import Cannelloni.SwitchConfig.Writer
import Cannelloni.SwitchConfig.Records
import Cannelloni.SwitchConfig.Parse
import Cannelloni.SwitchConfig.Dropped
import Cannelloni.SwitchConfig.Target
import Cannelloni.SwitchConfig.Image
import Cannelloni.SwitchConfig.Upload
import Cannelloni.Hdkif.Rx
import Cannelloni.Hdkif.RxRing
import Cannelloni.Hdkif.RxChain
import Cannelloni.Hdkif.RxBuffers
import Cannelloni.Hdkif.Tx
import Cannelloni.Hdkif.TxRing
import Cannelloni.Lwip.Timeouts
import Cannelloni.Lwip.TimeoutOrder
import Cannelloni.Lwip.CyclicTimers
import Cannelloni.Lwip.Mem
import Cannelloni.Lwip.MemBlocks
import Cannelloni.Lwip.MemOps
import Cannelloni.Lwip.MemRegions
import Cannelloni.Lib.RefCount
import Cannelloni.Lwip.Pbuf
import Cannelloni.Lwip.PbufRefs
import Cannelloni.Lwip.PbufChains
import Cannelloni.Lwip.PbufRuns
import Cannelloni.Lwip.PbufPool
