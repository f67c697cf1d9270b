import AnarchNet.Lib.Effect
import AnarchNet.Lib.FileTree
import AnarchNet.Lib.FileCalls
import AnarchNet.Lib.FileSpecs
import AnarchNet.Lib.FileFrame
import AnarchNet.Crypto
import AnarchNet.Blocks
import AnarchNet.Blockstore.Basic
import AnarchNet.Blockstore.Specs
import AnarchNet.Blockstore.RoundTrip
import AnarchNet.Blockstore.Interference
import AnarchNet.Blockstore.Partition
import AnarchNet.FFStore.Basic
import AnarchNet.FFStore.Specs
import AnarchNet.FFStore.Multimap
import AnarchNet.Json.Value
import AnarchNet.Json.Reader
import AnarchNet.Json.Document
import AnarchNet.Json.Spirit
import AnarchNet.Rpc.Request
import AnarchNet.Db
import AnarchNet.Db.Rollback
import AnarchNet.Db.Failures
import AnarchNet.Rpc.Handlers
import AnarchNet.Rpc.Objects
import AnarchNet.Rpc.Answers
import AnarchNet.Rpc.Interleaving
import AnarchNet.FFStore.Independence
import AnarchNet.Rpc.KeyValue
import AnarchNet.Blockstore.Confinement
import AnarchNet.Blockstore.Published
import AnarchNet.Blockstore.Lifetime
import AnarchNet.Lib.FileKeeping
import AnarchNet.Lib.FileFaults
import AnarchNet.Lib.FileBare
import AnarchNet.FFStore.Faults
import AnarchNet.KvSlots
import AnarchNet.FFStore.Stocked
import AnarchNet.Blockstore.KeyValue
import AnarchNet.Blockstore.Removal
import AnarchNet.Blockstore.Faults
import AnarchNet.Blockstore.Retries
import AnarchNet.Blockstore.Stocked
import AnarchNet.Rpc.Connection
import AnarchNet.Rpc.Liveness
import AnarchNet.Rpc.Client
import AnarchNet.LruCache
import AnarchNet.Archive
import AnarchNet.Lib.Native
import AnarchNet.StorageManager.Basic
import AnarchNet.StorageManager.Writing
import AnarchNet.StorageManager.Streams
import AnarchNet.StorageManager.Loading
import AnarchNet.Rpc.Ids
import AnarchNet.Db.Loading
import AnarchNet.Lib.AsyncQueue
import AnarchNet.Lib.Members
import AnarchNet.Frontend.UpdateRepo
import AnarchNet.FFStore.ManyKeys
import AnarchNet.Rpc.Recreation
import AnarchNet.Rpc.Replies
import AnarchNet.Rpc.Occurrences
import AnarchNet.Bootstrap.Hostlist
import AnarchNet.Frontend.Walk
import AnarchNet.Frontend.Repeated
import AnarchNet.Lib.FileMaking
import AnarchNet.FFStore.Throws
import AnarchNet.Blockstore.Throws
import AnarchNet.Rpc.Survival
import AnarchNet.Lib.Twin
import AnarchNet.Lib.FileTwin
import AnarchNet.Blockstore.Outside
import AnarchNet.Blockstore.Reloading
import AnarchNet.Blockstore.Transparency
import AnarchNet.Lib.Transducer
import AnarchNet.Libb64
import AnarchNet.Lib.EditScript
import AnarchNet.DiffMatchPatch.Merge
import AnarchNet.DiffMatchPatch.Cleanup
import AnarchNet.DiffMatchPatch.Diff
import AnarchNet.DiffMatchPatch.Patch
import AnarchNet.Lib.Diagonals
import AnarchNet.DiffMatchPatch.Bisect
import AnarchNet.DiffMatchPatch.Apply
import AnarchNet.DiffMatchPatch.PatchText
import AnarchNet.Db.Plain
