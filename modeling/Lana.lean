import Lana.Bpf.Bounds
import Lana.Bpf.Install
import Lana.Critbit.Canonical
import Lana.Critbit.Lookup
import Lana.Critbit.Reclaim
import Lana.Engine.Forwarding
import Lana.Engine.Seqlock
import Lana.Engine.Timer
import Lana.Fblock.Binders
import Lana.Fblock.TeeStore
import Lana.Socket.Mail
import Lana.User.Board
import Lana.User.Connections
import Lana.User.Destruction
import Lana.User.Down
import Lana.User.Fbctl
import Lana.User.Fields
import Lana.User.Lifetimes
import Lana.User.Listing
import Lana.User.Modules
import Lana.User.Procfs
import Lana.User.RemoveBind
import Lana.User.ReplaceSafe
import Lana.User.Rollback
import Lana.User.Slab
import Lana.User.Sockets
import Lana.User.Subscribers
import Lana.User.Subscriptions
import Lana.User.TwoPort
import Lana.Vlink.Dispatch
import Lana.Vlink.Pins
import Lana.Vlink.Tags
import Lana.Vlink.Unregister
