import Masstree.Query.Onego
import Masstree.Log.ReadBack
import Masstree.Log.Restart
import Masstree.Checkpoint.Crash
import Masstree.Tree.Phantom
import Masstree.Msgpack.Hostile
import Masstree.Msgpack.Agree
import Masstree.Query.Interchange
import Masstree.Query.Owned
import Masstree.Rcu.Reclaim
import Masstree.Tree.Heap
import Masstree.Tree.Halves
import Masstree.Tree.Arrays
import Masstree.Tree.Routing
import Masstree.Tree.Roots
import Masstree.Tree.Leaks
import Masstree.Lib.Workq
import Masstree.Tree.Destroy
import Masstree.Row.Update
import Masstree.Lib.Fields
import Masstree.Tree.Kpermuter
import Masstree.Tree.Slots
import Masstree.Tree.Ksearch
import Masstree.Tree.Layered
import Masstree.Tree.Slice
import Masstree.Tree.RawKey
import Masstree.Tree.VersionLayout
import Masstree.Tree.VersionRuns
import Masstree.Tree.RawHalves
import Masstree.Query.QueryMasstree
import Masstree.Json.Maps
import Masstree.Text.Utf8
import Masstree.Tree.LeafList
import Masstree.Checkpoint.Restore
import Masstree.Text.JsonNumbers
import Masstree.Text.JsonRoundTrip
import Masstree.Checkpoint.Metadata
import Masstree.Text.JsonHostile
