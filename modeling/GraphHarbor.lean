import GraphHarbor.Kit.TSys
import GraphHarbor.Service
import GraphHarbor.Effects
import GraphHarbor.Exclusion
import GraphHarbor.Fencing
import GraphHarbor.Integrity
import GraphHarbor.Reaper
import GraphHarbor.Attribution
import GraphHarbor.Claiming
import GraphHarbor.StateUpdates
import GraphHarbor.Footprint
import GraphHarbor.Terminal
import GraphHarbor.Retention
import GraphHarbor.Numbering
import GraphHarbor.LogReader
import GraphHarbor.ThreadStream
import GraphHarbor.Protocol
import GraphHarbor.ProtocolStream
import GraphHarbor.RunStream
import GraphHarbor.RedisStream
import GraphHarbor.Fanout
import GraphHarbor.Columns
import GraphHarbor.Ends
import GraphHarbor.Attempts
import GraphHarbor.Leases
import GraphHarbor.Drains
import GraphHarbor.Kit.JsonText
import GraphHarbor.Kit.EventStream
import GraphHarbor.Kit.Chain
import GraphHarbor.Framing
import GraphHarbor.ThreadCopy
import GraphHarbor.Pruning
import GraphHarbor.AssistantVersions
import GraphHarbor.Places
import GraphHarbor.Queue
import GraphHarbor.EventBuffer
import GraphHarbor.SeenIds
import GraphHarbor.Kit.PyStr
import GraphHarbor.StreamIds
import GraphHarbor.ControlKeys
import GraphHarbor.QueueWake
import GraphHarbor.ThreadJoin
import GraphHarbor.Kit.Dict
import GraphHarbor.RunConfig
import GraphHarbor.EventFrames
import GraphHarbor.MessageDeltas
import GraphHarbor.Kit.Jsonb
import GraphHarbor.Filters
import GraphHarbor.Kit.Base64
import GraphHarbor.Kit.PyJson
import GraphHarbor.ContextTokens
import GraphHarbor.Heartbeats
import GraphHarbor.Submissions
import GraphHarbor.Serial
