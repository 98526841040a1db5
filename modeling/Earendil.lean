import Earendil.Basic
import Earendil.Lru
import Earendil.ReplyBlockStore.Basic
import Earendil.ReplyBlockStore.SingleUse
import Earendil.ReplyBlockStore.Recency
import Earendil.ReplyBlockStore.Batch
import Earendil.ReplyBlockStore.Window
import Earendil.Haven.Dispatcher
import Earendil.Haven.SendTo
import Earendil.Haven.Registration
import Earendil.Link.Adjacencies
import Earendil.Link.SignAdjacency
import Earendil.Link.OnionPump
import Earendil.Link.Outgoing
import Earendil.Link.RpcTransport
import Earendil.Link.RpcResponses
import Earendil.Link.ConnPool
import Earendil.Link.ReadProgress
import Earendil.Control.Sockets
import Earendil.Control.Bindings
import Earendil.Control.AnonIdentities
import Earendil.GlobalRpc.Transport
