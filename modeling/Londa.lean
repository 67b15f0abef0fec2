import Londa.FixedThreadPoolWakeup
import Londa.ThreadpoolWakeup
import Londa.MyFutureCount
import Londa.MyFutureDelivery
import Londa.LongConnectionLoops
import Londa.ViaEpollEcho
import Londa.ViaEpollClient
import Londa.ViaSelectEcho
import Londa.ViaSelectRefusal
import Londa.ViaPollReads
import Londa.ViaPollOutcome
import Londa.ReusePortClient
import Londa.ProducerConsumer
import Londa.OneWriterDelivery
import Londa.TinyRwc
import Londa.OrderPrint
import Londa.AlternatePrint
import Londa.MyAllocater
import Londa.ManualMt
import Londa.UnixSocket
import Londa.Dpipe
import Londa.PlacementCommands
import Londa.Getline
import Londa.Port
import Londa.ThreadpoolCount
import Londa.Connection
import Londa.S11nExample
import Londa.Atomic
import Londa.ThreadSaferCounter
import Londa.ThreadSaferCounterPrint
import Londa.Pair
import Londa.ViaEpollSystem
import Londa.Notify
import Londa.LongConnectionClient
import Londa.LongConnectionRelay
import Londa.LongConnectionSystem
import Londa.PlacementMain
import Londa.Timer
import Londa.FixedThreadPoolMain
import Londa.ThreadpoolService
import Londa.ReusePortServer
