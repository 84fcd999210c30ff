import Sylar.FdContextTableProofs
import Sylar.StaleEventProofs
import Sylar.ShutdownProofs
import Sylar.HookFlagProofs
import Sylar.HookCloseProofs
import Sylar.AffinityProofs
import Sylar.WakeupProofs
import Sylar.HttpServerProofs
import Sylar.HttpKeepAliveProofs
import Sylar.HttpMethodProofs
import Sylar.HttpBodyLimitProofs
import Sylar.FdManagerRaceProofs
import Sylar.HookSwitchProofs
import Sylar.EventDeliveryProofs
import Sylar.AsyncRequestProofs
import Sylar.SendQueueProofs
import Sylar.LoadBalanceProofs
import Sylar.BytearrayTransferProofs
import Sylar.FixSizeProofs
import Sylar.ConfigRaceProofs
import Sylar.ModuleRegistryProofs
import Sylar.PoolReuseProofs
import Sylar.LogReconfigProofs
import Sylar.BytearrayFileProofs
import Sylar.IoVectorProofs
import Sylar.VarintProofs
import Sylar.StringDecodeProofs
import Sylar.DecompressionProofs
import Sylar.TimerHandleProofs
import Sylar.HookSleepProofs
import Sylar.AddressTextProofs
import Sylar.IdleWaitProofs
import Sylar.UriRoundTripProofs
import Sylar.UrlCodingProofs
import Sylar.ServletProofs
import Sylar.TcpServerProofs
import Sylar.TrimProofs
import Sylar.AddressOrderProofs
import Sylar.SpeedLimitProofs
