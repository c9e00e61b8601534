import Vampire.Lib.Json
import Vampire.Lib.JsonSize
import Vampire.Lib.Runs
import Vampire.Entry
import Vampire.Store
import Vampire.Publish
import Vampire.Tasks
import Vampire.Handoff
import Vampire.Bound
import Vampire.Flight
import Vampire.Rules
import Vampire.Owner
import Vampire.Leftover
import Vampire.Lookup
import Vampire.Gate
import Vampire.Replay
import Vampire.Progress
import Vampire.Clients
import Vampire.Codec
import Vampire.Pins
import Vampire.Lib.Percent
import Vampire.Lib.Tally
import Vampire.Url
import Vampire.Canonical
import Vampire.Keys
import Vampire.Routes
import Vampire.Git
import Vampire.Rewrite
import Vampire.Html
import Vampire.NpmRewrite
import Vampire.NpmSize
import Vampire.Reserve
import Vampire.StoreMetadata
import Vampire.Handover
import Vampire.Admission
import Vampire.NormalForm
import Vampire.Cell
import Vampire.Lib.Affix
import Vampire.Names
import Vampire.Directory
import Vampire.Evict
import Vampire.Relay
import Vampire.Startup
import Vampire.Cleanup
import Vampire.Memory
