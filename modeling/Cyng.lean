import Cyng.Theory.Machine
import Cyng.Theory.ByteOrder
import Cyng.Theory.OrderedMap
import Cyng.Theory.KeyedRows
import Cyng.Theory.Rfc8259
import Cyng.Theory.Hex
import Cyng.Theory.Pieces
import Cyng.Theory.PathView
import Cyng.Theory.Numerals
import Cyng.Theory.Sink
import Cyng.Theory.Locks
import Cyng.Theory.Transactions
import Cyng.Theory.Refusal
import Cyng.Theory.Reuse
import Cyng.Theory.Ownership
import Cyng.Theory.Overwriting
import Cyng.Theory.Calendar
import Cyng.Build
import Cyng.Obj.TypeCode
import Cyng.Obj.Intrinsics
import Cyng.Obj.ObisList
import Cyng.Obj.Object
import Cyng.Io.Binary
import Cyng.Io.Count
import Cyng.Io.Decode
import Cyng.Io.ScalarCodec
import Cyng.Io.Parser
import Cyng.Io.Hostile
import Cyng.Obj.Hash
import Cyng.Vm.Stack
import Cyng.Vm.Machine
import Cyng.Vm.Transport
import Cyng.Vm.RoundTrip
import Cyng.Vm.OpCodes
import Cyng.Vm.Program
import Cyng.Vm.Mesh
import Cyng.Vm.Invoke
import Cyng.Vm.Dispatch
import Cyng.Vm.Frames
import Cyng.Task.Channel
import Cyng.Task.Registry
import Cyng.Task.Exchange
import Cyng.Task.Mail
import Cyng.Net.Client
import Cyng.Net.Resolver
import Cyng.Net.Endpoints
import Cyng.Net.Server
import Cyng.Io.Utf8
import Cyng.Io.Utf8Decoder
import Cyng.Io.Transcode
import Cyng.Dom.Find
import Cyng.Dom.NestedMap
import Cyng.Dom.Merge
import Cyng.Dom.Rename
import Cyng.Dom.Transform
import Cyng.Dom.Walker
import Cyng.Json.Tokenizer
import Cyng.Json.Parser
import Cyng.Json.Document
import Cyng.Json.Library
import Cyng.Json.Chunking
import Cyng.Json.Lexing
import Cyng.Json.Acceptance
import Cyng.Json.Serializer
import Cyng.Json.RoundTrip
import Cyng.Json.Safety
import Cyng.Json.Replay
import Cyng.Json.Pretty
import Cyng.Parse.Hex
import Cyng.Parse.Numbers
import Cyng.Parse.Timestamp
import Cyng.Parse.Identifiers
import Cyng.Store.Table
import Cyng.Store.Refinement
import Cyng.Store.Pub
import Cyng.Store.Replica
import Cyng.Store.Routing
import Cyng.Store.Detection
import Cyng.Store.Names
import Cyng.Store.ByName
import Cyng.Store.MetaSql
import Cyng.Store.Facade
import Cyng.Store.Access
import Cyng.Store.AutoTable
import Cyng.Store.Delivery
import Cyng.Sql.Clause
import Cyng.Sql.Builder
import Cyng.Sql.Reuse
import Cyng.Db.Sqlite
import Cyng.Db.Statement
import Cyng.Db.Result
import Cyng.Db.Restore
import Cyng.Db.Storage
import Cyng.Db.Persistence
import Cyng.Db.Lifecycle
import Cyng.Db.Loading
import Cyng.Log.RollingFile
import Cyng.Db.SessionPool
import Cyng.Xml.Serializer
import Cyng.Xml.Reader
import Cyng.Xml.RoundTrip
import Cyng.Csv.Tokenizer
import Cyng.Csv.Parser
import Cyng.Csv.Weight
import Cyng.Csv.Rows
import Cyng.Csv.Replay
import Cyng.Csv.Export
