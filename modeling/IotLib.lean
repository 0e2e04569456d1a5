import IotLib.Ubus.Events
import IotLib.Ubus.Ownership
import IotLib.Uci.Replay
import IotLib.Uci.Interleave
import IotLib.Jansson.Buffer
import IotLib.Jansson.Report
import IotLib.Uloop.Delete
import IotLib.Ubus.Reply
import IotLib.Blobmsg.Enumerate
import IotLib.Blobmsg.JsonFormat
import IotLib.Ubus.Account
import IotLib.Ubus.Access
import IotLib.Ubus.ReqData
import IotLib.Xmldb.Isolate
import IotLib.Xmldb.Framing
import IotLib.Ustream.Fifo
import IotLib.Xmldb.Denote
import IotLib.Ubus.Send
import IotLib.Ubus.Notify
import IotLib.Uci.Silent
import IotLib.Uci.Merge
import IotLib.Uci.Separator
import IotLib.Pam.Load
import IotLib.Pam.Lines
import IotLib.Pam.Data
import IotLib.Ubox.Base64
import IotLib.Ubox.Vlist
import IotLib.Uloop.Timeouts
import IotLib.JsonScript.EvalString
import IotLib.JsonScript.Local
import IotLib.Ubox.SafeList
import IotLib.Ubox.Wakeup
import IotLib.Jansson.Chunks
import IotLib.Jansson.Consume
import IotLib.Jansson.Dumpb
import IotLib.Jansson.HashtableRun
import IotLib.Jansson.DeepCopy
import IotLib.Jansson.Codec
import IotLib.Pam.Name
import IotLib.Pam.Time
import IotLib.Libcgi.Query
import IotLib.Uloop.Processes
