import MPlayer.Lib.Run
import MPlayer.Lib.Except
import MPlayer.Lib.Vlen
import MPlayer.Lib.Fuel
import MPlayer.Lib.Memory
import MPlayer.Lib.Ring
import MPlayer.Lib.Forest
import MPlayer.Stream.Basic
import MPlayer.Stream.Backend
import MPlayer.Stream.Window
import MPlayer.Stream.Reader
import MPlayer.Stream.Transparent
import MPlayer.Stream.Cache
import MPlayer.Stream.CacheInvariant
import MPlayer.Stream.CacheIntegrity
import MPlayer.Stream.CacheRace
import MPlayer.Stream.Refill
import MPlayer.Stream.LinearSeek
import MPlayer.Stream.Write
import MPlayer.PlayTree.Basic
import MPlayer.PlayTree.Step
import MPlayer.PlayTree.Forward
import MPlayer.PlayTree.Backward
import MPlayer.PlayTree.Skip
import MPlayer.PlayTree.Calls
import MPlayer.PlayTree.Returning
import MPlayer.PlayTree.Reaching
import MPlayer.Lib.LinkedQueue
import MPlayer.Demux.Basic
import MPlayer.Demux.Queue
import MPlayer.Demux.Fill
import MPlayer.Demux.Readers
import MPlayer.Demux.Integrity
import MPlayer.Demux.Pattern
import MPlayer.Demux.PatternSearch
import MPlayer.Lib.Lines
import MPlayer.Input.CmdFd
import MPlayer.Input.Splitting
import MPlayer.Input.Commands
import MPlayer.Stream.Rtp
import MPlayer.Stream.RtpOrder
import MPlayer.Stream.RtpReads
import MPlayer.Stream.RtpWrap
import MPlayer.Stream.RtpLoss
import MPlayer.Mkv.Ebml
import MPlayer.Mkv.Lacing
import MPlayer.Mkv.Elements
import MPlayer.Mkv.Numbers
import MPlayer.Mkv.Encodings
import MPlayer.Mkv.Decode
import MPlayer.Config.Options
import MPlayer.Mkv.Header
import MPlayer.Lib.Nest
import MPlayer.Config.Basic
import MPlayer.Config.Values
import MPlayer.Config.Lists
import MPlayer.Config.Types
import MPlayer.Config.Calls
import MPlayer.Config.Sound
import MPlayer.Config.Scope
import MPlayer.Config.ListPasses
import MPlayer.Config.ConfigFile
import MPlayer.Config.OwnText
import MPlayer.Config.ObjDel
import MPlayer.Config.Plan
import MPlayer.Config.Atomic
import MPlayer.Ts.Basic
import MPlayer.Ts.Pes
import MPlayer.Ts.Parse
import MPlayer.Ts.PesSpec
import MPlayer.Ts.Sync
import MPlayer.Ts.Channel
import MPlayer.Ts.Reassembly
import MPlayer.Ts.Delivery
import MPlayer.Muxer.Basic
import MPlayer.Muxer.Buffering
import MPlayer.Lib.File
import MPlayer.Vobsub.Basic
import MPlayer.Vobsub.Reading
import MPlayer.Vobsub.RoundTrip
import MPlayer.Lib.Loops
import MPlayer.Lib.RunLength
import MPlayer.Mov.Basic
import MPlayer.Mov.Reading
import MPlayer.Mov.Expand
import MPlayer.Mov.Index
import MPlayer.Stream.Scast
import MPlayer.Lib.Find
import MPlayer.Stream.Text
import MPlayer.Stream.HttpFields
import MPlayer.Stream.UrlEscape
import MPlayer.Stream.EscapeMeaning
import MPlayer.Stream.Url
import MPlayer.Stream.Redirect
import MPlayer.Stream.UrlGrammar
import MPlayer.Stream.HttpParse
import MPlayer.Asm.Basic
import MPlayer.Asm.Progress
import MPlayer.Asm.Grammar
import MPlayer.Asm.Reading
import MPlayer.Asm.Meaning
import MPlayer.Input.ParseCmd
import MPlayer.Input.Arguments
import MPlayer.Input.Survival
import MPlayer.Lib.Counter
import MPlayer.Lib.Window
import MPlayer.Input.Complete
import MPlayer.Input.KeysDown
import MPlayer.Input.KeyFifo
import MPlayer.Input.StuckKeys
import MPlayer.Input.ConfFile
import MPlayer.Input.ConfLines
import MPlayer.Input.ConfReading
import MPlayer.Mkv.LacingSafety
import MPlayer.Lib.Best
import MPlayer.Mkv.Seek
import MPlayer.Lib.Copy
import MPlayer.Lib.Stride
import MPlayer.Lib.Steps
import MPlayer.Mkv.RealAudio
import MPlayer.Mkv.Nibbles
import MPlayer.Mkv.RealAudioSafety
import MPlayer.Mkv.Descrambling
import MPlayer.Mkv.Parsing
import MPlayer.Mkv.ParsingProgress
import MPlayer.Mkv.ParsingBound
import MPlayer.Sub.FindSub
import MPlayer.Sub.Lookup
import MPlayer.Sub.Indices
import MPlayer.Sub.ClosedCaptions
import MPlayer.Sub.CaptionLines
import MPlayer.Spu.Assemble
import MPlayer.Spu.Reassembly
import MPlayer.Spu.Control
import MPlayer.Spu.ControlSafety
import MPlayer.Spu.Picture
import MPlayer.Spu.Display
import MPlayer.Spu.ImageSafety
import MPlayer.Spu.Cropping
import MPlayer.Spu.Queueing
import MPlayer.Muxer.AviHeader
import MPlayer.Muxer.AviRiff
import MPlayer.Muxer.AviIndex
import MPlayer.Muxer.SubIndices
import MPlayer.Lib.Collect
import MPlayer.Avi.Readers
import MPlayer.Avi.Agreement
import MPlayer.Lib.Sse
import MPlayer.Pullup.Metrics
import MPlayer.Pullup.Queue
import MPlayer.Pullup.Staleness
import MPlayer.Avi.Seeking
import MPlayer.Avi.AudioPosition
import MPlayer.Avi.Skipping
import MPlayer.Ts.Tables
import MPlayer.Ts.SlPacket
import MPlayer.Ts.SlPacketBounds
import MPlayer.Lib.Halting
import MPlayer.Af.Filters
import MPlayer.Af.Reinit
import MPlayer.Lib.Upsert
import MPlayer.Ts.Section
import MPlayer.Ts.Pat
import MPlayer.Ts.PatSections
import MPlayer.Ts.PatCarriage
import MPlayer.Ts.Mp4Descriptors
import MPlayer.Ts.Mp4Nesting
import MPlayer.Avi.Header
import MPlayer.Avi.HeaderTermination
import MPlayer.Avi.HeaderLockstep
import MPlayer.Avi.HeaderHistory
import MPlayer.Af.Adding
import MPlayer.Af.Restoring
import MPlayer.Af.Working
import MPlayer.Af.Kept
import MPlayer.Af.Following
import MPlayer.Af.AllOrNothing
import MPlayer.Af.Removal
import MPlayer.Edl.Update
import MPlayer.Lib.Bits
import MPlayer.MpegHdr.Vol
import MPlayer.MpegHdr.Sps
import MPlayer.MpegHdr.SpsBounds
import MPlayer.Muxer.HeaderPatch
import MPlayer.Property.Expand
import MPlayer.Property.Meaning
import MPlayer.Property.Expansion
import MPlayer.Lib.Relink
import MPlayer.PlayTree.Edit
import MPlayer.PlayTree.Sound
import MPlayer.PlayTree.Consistent
import MPlayer.Vobsub.Queue
import MPlayer.Sub.Sorting
import MPlayer.PlayTree.Playing
