import Luaml.Lib.Res
import Luaml.Lib.Text
import Luaml.Lib.Unicode
import Luaml.Lib.Walk
import Luaml.Lib.Descent
import Luaml.Lib.Num
import Luaml.Lib.Rounding
import Luaml.Lib.Map
import Luaml.Lib.Ordered
import Luaml.Lib.Json
import Luaml.Lib.Path
import Luaml.Lib.PathLaws
import Luaml.Lib.Capability
import Luaml.Lib.Revision
import Luaml.Types
import Luaml.Pattern
import Luaml.PatternLaws
import Luaml.PatternPrint
import Luaml.PatternPipes
import Luaml.PatternRoundTrip
import Luaml.PatternScans
import Luaml.Splits
import Luaml.Parser
import Luaml.Frontmatter
import Luaml.Sections
import Luaml.Clauses
import Luaml.ParserLaws
import Luaml.Rendering
import Luaml.Annotations
import Luaml.Guard
import Luaml.GuardLaws
import Luaml.Conjunction
import Luaml.GuardPrint
import Luaml.PatternMatch
import Luaml.GuardOrder
import Luaml.GuardNames
import Luaml.PatternMatchLaws
import Luaml.Inheritance
import Luaml.Registry
import Luaml.Pins
import Luaml.Captures
import Luaml.CapturePlaces
import Luaml.Discovery
import Luaml.RegistryLaws
import Luaml.Extensions
import Luaml.Reload
import Luaml.Replacement
import Luaml.Engine
import Luaml.CascadeLaws
import Luaml.Plain
import Luaml.Siblings
import Luaml.Signatures
import Luaml.Completion
import Luaml.Api
import Luaml.Lua
import Luaml.Json
import Luaml.LuaLaws
import Luaml.Executor
import Luaml.ExecutorLaws
import Luaml.Lib.Handles
import Luaml.Handles
import Luaml.Bridge
import Luaml.BridgeLaws
import Luaml.Conversions
import Luaml.Cycles
import Luaml.Representation
import Luaml.JsonLaws
import Luaml.JsonKeys
import Luaml.JsonMapping
import Luaml.JsonTables
import Luaml.JsonCanonical
import Luaml.Encoders
import Luaml.EncoderLaws
import Luaml.EncoderCopies
import Luaml.Contents
import Luaml.Rpc
import Luaml.RpcLaws
import Luaml.JsonRoundTrip
import Luaml.Paths
import Luaml.Relative
import Luaml.Normalization
import Luaml.Lib.Utf8
import Luaml.Url
import Luaml.Lib.Rounds
import Luaml.Promises
import Luaml.Awaiting
import Luaml.WaitAll
import Luaml.WaitAny
import Luaml.Settling
import Luaml.Client
import Luaml.ClientLaws
import Luaml.Blocking
import Luaml.Routing
import Luaml.Environment
import Luaml.EnvironmentLaws
import Luaml.Namespaces
import Luaml.Injection
import Luaml.InjectionLaws
import Luaml.InjectionOrder
import Luaml.NamespaceOrder
import Luaml.Shelter
import Luaml.Service
import Luaml.ServiceLaws
import Luaml.Replies
import Luaml.Sessions
import Luaml.SessionLaws
import Luaml.Wire
import Luaml.Tally
import Luaml.Lib.Script
import Luaml.Worlds
import Luaml.Remote
import Luaml.Lifecycle
import Luaml.LifecycleLaws
import Luaml.Watching
import Luaml.Lib.Derive
import Luaml.Protocol
import Luaml.SessionLife
import Luaml.Calls
import Luaml.Responses
import Luaml.Provenance
import Luaml.Confinement
