import PoopWorms.Lib.Runs
import PoopWorms.Lib.LinkedList
import PoopWorms.Lib.Octets
import PoopWorms.Lib.Probing
import PoopWorms.Lib.ColorStack
import PoopWorms.Lib.Mirror
import PoopWorms.Lib.Forest
import PoopWorms.Lib.BinaryHeap
import PoopWorms.Lib.Stamped
import PoopWorms.Lib.CyclicPass
import PoopWorms.Lib.Readers
import PoopWorms.Lib.Conveyor
import PoopWorms.Osc.Value
import PoopWorms.Osc.Message
import PoopWorms.Osc.MessageTheorems
import PoopWorms.Osc.Parse
import PoopWorms.Osc.ParseTheorems
import PoopWorms.Osc.AddArguments
import PoopWorms.Osc.Bundle
import PoopWorms.Osc.BundleTheorems
import PoopWorms.Osc.ParsePacket
import PoopWorms.Osc.ParsePacketTheorems
import PoopWorms.Server.MsgIter
import PoopWorms.Server.MsgIterTheorems
import PoopWorms.Server.World
import PoopWorms.Server.WorldTheorems
import PoopWorms.Server.Commands
import PoopWorms.Server.CommandsTheorems
import PoopWorms.Server.NodeTree
import PoopWorms.Server.NodeCommands
import PoopWorms.Server.NodeCommandsTheorems
import PoopWorms.Server.NodeRuns
import PoopWorms.Server.HashTable
import PoopWorms.Server.HashTableTheorems
import PoopWorms.Server.Graph
import PoopWorms.Server.Switch
import PoopWorms.Server.MsgFifo
import PoopWorms.Server.SequencedCommand
import PoopWorms.Server.SequencedCommandTheorems
import PoopWorms.Server.GraphDef
import PoopWorms.Server.Timeline
import PoopWorms.Server.BufferColoring
import PoopWorms.Server.GraphDefTheorems
import PoopWorms.Server.GraphDefRead
import PoopWorms.Server.GraphDefReadTheorems
import PoopWorms.Server.SndBuf
import PoopWorms.Server.SndBufTheorems
import PoopWorms.Client.AKSCSynth
import PoopWorms.Client.AKSCSynthTheorems
import PoopWorms.App.Sequence
import PoopWorms.App.SequenceTheorems
import PoopWorms.App.Drift
import PoopWorms.App.Playback
import PoopWorms.App.Ticker
import PoopWorms.App.Audio
import PoopWorms.App.AudioTheorems
import PoopWorms.App.Effects
import PoopWorms.App.Layout
import PoopWorms.App.Scene
import PoopWorms.App.Served
import PoopWorms.App.SignalChain
import PoopWorms.App.Model
import PoopWorms.App.ModelTheorems
import PoopWorms.App.Creation
import PoopWorms.App.Silence
import PoopWorms.App.Leaks
import PoopWorms.App.Mating
import PoopWorms.App.MatingPass
import PoopWorms.App.Offspring
import PoopWorms.App.Sight
import PoopWorms.App.Motion
import PoopWorms.App.Splotches
import PoopWorms.Server.Engine
import PoopWorms.Server.EngineFrees
import PoopWorms.Server.EngineSteps
import PoopWorms.Server.Traversal
import PoopWorms.Server.Cycle
import PoopWorms.Server.Requests
import PoopWorms.Server.RootGroup
import PoopWorms.Server.PriorityQueue
import PoopWorms.Server.PriorityQueueTheorems
import PoopWorms.Server.PriorityQueueFlush
import PoopWorms.Server.Scheduler
import PoopWorms.Server.MsgFifoThreads
import PoopWorms.Server.Buses
import PoopWorms.Server.BusesTheorems
import PoopWorms.Server.MsgFifoContents
import PoopWorms.Server.Packets
import PoopWorms.Server.PacketOwners
import PoopWorms.Server.GraphDefLib
import PoopWorms.Server.GraphDefLibTheorems
import PoopWorms.Server.ControlArgs
import PoopWorms.Server.ControlArgsTheorems
import PoopWorms.Server.ArgumentLoops
import PoopWorms.Server.ArgumentLoopsTheorems
import PoopWorms.Server.CommandArgs
import PoopWorms.Server.Alignment
import PoopWorms.Server.DumpTransparency
import PoopWorms.Server.WireBufs
import PoopWorms.Server.NodeOrder
import PoopWorms.Server.GrowingTable
import PoopWorms.Server.GrowingTableTheorems
import PoopWorms.Server.BundleLoop
import PoopWorms.Server.NodeFill
import PoopWorms.Server.NodeFillTheorems
import PoopWorms.Server.RangeWrites
import PoopWorms.Server.RangeWritesTheorems
import PoopWorms.Server.SynthNew
import PoopWorms.Server.SynthNewTheorems
import PoopWorms.Server.SynthLayout
import PoopWorms.Server.SynthLayoutTheorems
import PoopWorms.Lib.Tiling
import PoopWorms.Server.AllocPool
import PoopWorms.Server.AllocPoolBins
import PoopWorms.Server.AllocPoolFree
import PoopWorms.Server.AllocPoolSearch
import PoopWorms.Server.AllocPoolHeap
import PoopWorms.Server.AllocPoolOpened
import PoopWorms.Server.AllocPoolRelease
import PoopWorms.Server.AllocPoolAlloc
import PoopWorms.Server.AllocPoolRealloc
import PoopWorms.Server.AllocPoolRuns
import PoopWorms.Server.AllocPoolTheorems
import PoopWorms.Lib.FlatMemory
import PoopWorms.Server.ScPacket
import PoopWorms.Server.ScPacketTheorems
import PoopWorms.Server.RangeReplies
import PoopWorms.Server.RangeRepliesTheorems
import PoopWorms.Lib.PreorderTrees
import PoopWorms.Server.QueryTree
import PoopWorms.Server.ReplyReader
import PoopWorms.Server.ControlHistory
import PoopWorms.Server.QueryTreeTheorems
import PoopWorms.Server.QueryDumpTheorems
import PoopWorms.Server.BufferIndex
import PoopWorms.Server.SoundFile
import PoopWorms.Server.SoundGrids
import PoopWorms.Server.SoundFileTheorems
import PoopWorms.Lib.Paths
import PoopWorms.Server.RestrictPath
import PoopWorms.Server.RestrictPathTheorems
import PoopWorms.Server.AllocPoolLargest
import PoopWorms.Server.GraphCalc
import PoopWorms.Lib.DenseTable
import PoopWorms.Server.NotifyUsers
import PoopWorms.Lib.DelayLine
import PoopWorms.Server.OffsetOut
import PoopWorms.Server.OffsetOutTheorems
import PoopWorms.Server.BusIndex
import PoopWorms.Server.BusIndexTheorems
import PoopWorms.Lib.Lifetimes
import PoopWorms.Lib.Raising
import PoopWorms.Server.CommandMemory
import PoopWorms.Server.CommandMemoryTheorems
import PoopWorms.Server.CommandRelease
import PoopWorms.Server.CommandIssue
import PoopWorms.Lib.Ranks
import PoopWorms.Server.EngineCounters
import PoopWorms.Server.Standing
import PoopWorms.Server.RequestEffects
import PoopWorms.Server.Life
import PoopWorms.Server.UnitDiscipline
import PoopWorms.Server.EndRequests
import PoopWorms.Lib.Relay
import PoopWorms.Server.CommandOrder
import PoopWorms.Lib.Blocks
import PoopWorms.Server.NonRealTime
import PoopWorms.Lib.Timetable
import PoopWorms.Server.OscPackets
import PoopWorms.Client.Wire
import PoopWorms.Client.Link
import PoopWorms.Client.LinkTheorems
import PoopWorms.Lib.Trickle
import PoopWorms.Server.TcpPort
