import TinyMqtt.Codec.Lengths
import TinyMqtt.Conn.StateMachine
import TinyMqtt.Store.Runs
import TinyMqtt.Session.ExactlyOnce
import TinyMqtt.Session.PacketIds
import TinyMqtt.Topic.SubscriptionMap
import TinyMqtt.Topic.Retained
import TinyMqtt.Topic.Locality
import TinyMqtt.Topic.Occupied
import TinyMqtt.Topic.Scan
import TinyMqtt.Broker.WillPublishing
import TinyMqtt.Broker.Subscriptions
import TinyMqtt.Broker.Subscribing
import TinyMqtt.Broker.References
import TinyMqtt.Server.InFlight
import TinyMqtt.Server.Payloads
import TinyMqtt.Executor.Schedule
import TinyMqtt.Io.Mailbox
import TinyMqtt.Acl.Locality
import TinyMqtt.Acl.Insertion
import TinyMqtt.Acl.Loading
import TinyMqtt.Store.MongodbTasks
import TinyMqtt.Store.MongodbRuns
import TinyMqtt.Cluster.Forwarding
import TinyMqtt.Cluster.Overlong
import TinyMqtt.Cluster.Routes
import TinyMqtt.Lib.InTurn
import TinyMqtt.Session.Handing
import TinyMqtt.Server.Ordering
import TinyMqtt.Server.Establishment
import TinyMqtt.Net.InputStream
import TinyMqtt.Net.OutputStream
import TinyMqtt.Net.VectorLimit
import TinyMqtt.Net.QueueLaws
import TinyMqtt.Base.MapRuns
import TinyMqtt.Config.Reload
import TinyMqtt.Server.Authorization
import TinyMqtt.Server.PlainTopics
import TinyMqtt.Server.Clustered
import TinyMqtt.Broker.PasswordFile
import TinyMqtt.Codec.Capacity
import TinyMqtt.Codec.RemainLength
import TinyMqtt.Session.Client
import TinyMqtt.Session.KeepAlive
import TinyMqtt.Ev.TimerOrder
import TinyMqtt.Ev.TimerRuns
import TinyMqtt.Rule.Grammar
import TinyMqtt.Cluster.Dispatch
import TinyMqtt.Db.Locks
import TinyMqtt.Tools.ConsoleLine
import TinyMqtt.Rule.EngineRuns
import TinyMqtt.Rule.DelayMessage
import TinyMqtt.Thrdpool.MsgqueueWakeups
import TinyMqtt.Ev.Interest
