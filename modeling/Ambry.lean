import Ambry.Lib.CacheMirror
import Ambry.Lib.ExtentSafety
import Ambry.Lib.FreePersistence
import Ambry.Lib.Refinement
import Ambry.Asf.Doubles
import Ambry.Asf.SingleValue
import Ambry.Aci.Types
import Ambry.Aci.Handlers
import Ambry.Aci.Interpreter
import Ambry.Aci.Gate
import Ambry.Aci.Stores
import Ambry.Aci.Effects
import Ambry.Aci.WorkingDb
import Ambry.Aci.Credentials
import Ambry.Lib.Loading
import Ambry.Lib.ForeignFiles
import Ambry.Asf.Portability
import Ambry.Aci.Parser
import Ambry.Aci.Rendering
import Ambry.Foundation.Stream
import Ambry.Server.SocketUtil
import Ambry.Server.Client
import Ambry.Server.Server
import Ambry.Server.Requests
import Ambry.Server.Responses
import Ambry.Foundation.Coverage
import Ambry.Lib.SpaceLeak
import Ambry.Aci.FileSystem
import Ambry.Aci.OpenTable
import Ambry.Aci.UserCreation
import Ambry.Lib.CacheMode
import Ambry.Lib.TornIndex
import Ambry.Asf.Schema
import Ambry.Asf.Acceptance
import Ambry.Asf.SchemaMemory
import Ambry.Aci.Permissions
import Ambry.Aci.RecordCodec
import Ambry.Aci.StoredUsers
import Ambry.Aci.NoLogin
import Ambry.Aci.Arguments
import Ambry.Aci.Reader
import Ambry.Aci.Layout
import Ambry.Asf.UnknownKeys
import Ambry.Asf.Malformed
import Ambry.Server.Recvall
import Ambry.Lib.CacheLoad
import Ambry.Lib.OversizedKey
import Ambry.Lib.Reuse
import Ambry.Lib.Transaction
import Ambry.Lib.ByteOrderLoad
import Ambry.Server.Log
import Ambry.Aci.ParserBounds
import Ambry.Aci.Listing
import Ambry.Asf.Delimited
import Ambry.Aci.Administration
import Ambry.Server.CommandLoop
import Ambry.Server.Exchange
import Ambry.Aci.Authorization
import Ambry.Aci.Isolation
import Ambry.Server.Flags
import Ambry.Server.Main
import Ambry.Lib.Durability
import Ambry.Aci.FileRefinement
import Ambry.Server.Refinement
import Ambry.Aci.Restart
