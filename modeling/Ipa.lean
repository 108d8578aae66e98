import Ipa.Lib.Run
import Ipa.Db.Step.Invariant
import Ipa.Db.Step.Reset
import Ipa.Db.Step.Session
import Ipa.Db.Step.Claim
import Ipa.Db.Step.Worker
import Ipa.Db.Extraction.Model
import Ipa.Db.Extraction.Invariant
import Ipa.Db.Extraction.Append
import Ipa.Contracts.Extraction
import Ipa.Storage.Content
import Ipa.Storage.Puts
import Ipa.Storage.Agreement
import Ipa.Db.Chunk.Model
import Ipa.Db.Document.Model
import Ipa.Db.Vector.Refresh
import Ipa.Db.Vector.Sync
import Ipa.Db.Vector.Rrf
import Ipa.Db.Vector.Search
import Ipa.Db.Vector.Filter
import Ipa.Db.Vector.Pooling
import Ipa.Lib.Binary64
import Ipa.Db.Vector.Fusion
import Ipa.Db.Event.Log
import Ipa.Db.Step.Frontier
import Ipa.Core.Errors
import Ipa.Storage.Blob
import Ipa.Lib.KeyValue
import Ipa.Storage.CacheKeys
import Ipa.Storage.Lock
import Ipa.Db.Document.PatchOrder
import Ipa.Storage.RoundTrip
import Ipa.Lib.Json.Encode
import Ipa.Lib.Json.Decode
import Ipa.Lib.Json.RoundTrip
import Ipa.Storage.Cache
import Ipa.Storage.Entries
import Ipa.Storage.CachedJson
import Ipa.Storage.Pages
import Ipa.Lib.Batches
import Ipa.Storage.Fanout
import Ipa.Db.Tag.Model
import Ipa.Db.Tag.Replace
import Ipa.Db.Vector.Promotion
import Ipa.Db.Chunk.Upsert
import Ipa.Db.Document.Dedupe
import Ipa.Storage.Streams
import Ipa.Db.Step.Clock
import Ipa.Db.Tag.Create
import Ipa.Db.Approval
import Ipa.Lib.Json.Compact
import Ipa.Core.Problem
import Ipa.Storage.Factory
import Ipa.Core.Ids
import Ipa.Db.Step.Ensure
import Ipa.Storage.BlobKeys
import Ipa.Lib.RowSessions
import Ipa.Lib.RowCalls
import Ipa.Db.Tag.Sessions
import Ipa.Db.User
import Ipa.Db.Webhook
import Ipa.Lib.Paging
import Ipa.Db.Document.Listing
import Ipa.Db.Extraction.Validation
import Ipa.Lib.Since
import Ipa.Db.Chunk.Sessions
import Ipa.Db.Vector.TopK
import Ipa.Storage.Deletion
import Ipa.Lib.Collection
import Ipa.Storage.Startup
import Ipa.Lib.Strings
import Ipa.Core.Config
