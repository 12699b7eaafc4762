import MPlayer.Stream.Reader
import MPlayer.Lib.Except
import MPlayer.Demux.Basic

/-!
# Transport streams

The data of the transport stream demuxer: what it knows of each PID, the packets that it is
filling for the selected streams, and what it has read of the program tables.

Of the program tables only their effects are here.  The functions that read them are
parameters.
-/

namespace MPlayer

open Lib

/-! ## Elementary streams -/

/-- `es_stream_type_t`, and the zero that `memset` leaves. -/
inductive EsType where
  | unset
  | unknown
  | videoMpeg1
  | videoMpeg2
  | videoMpeg4
  | videoH264
  | videoAvc
  | videoDirac
  | videoHevc
  | videoVc1
  | audioMp2
  | audioA52
  | audioDts
  | audioLpcmBe
  | audioAac
  | audioAacLatm
  | audioTruehd
  | audioS302m
  | audioPcmBr
  | spuDvd
  | spuDvb
  | spuTeletext
  | spuPgs
  | pesPrivate1
  | slPesStream
  | slSection
  | mp4Od
deriving DecidableEq

/-- `IS_AUDIO`. -/
def EsType.isAudio : EsType → Bool
  | audioMp2 | audioA52 | audioLpcmBe | audioPcmBr | audioAac | audioAacLatm | audioDts
  | audioTruehd | audioS302m => true
  | _ => false

/-- `IS_VIDEO`. -/
def EsType.isVideo : EsType → Bool
  | videoMpeg1 | videoMpeg2 | videoMpeg4 | videoH264 | videoAvc | videoDirac | videoHevc
  | videoVc1 => true
  | _ => false

/-- `IS_SUB`. -/
def EsType.isSub : EsType → Bool
  | spuDvd | spuDvb | spuPgs | spuTeletext => true
  | _ => false

/-- A time in seconds, the quotient of two numbers. -/
structure Time where
  num : Nat
  den : Nat
deriving DecidableEq

/-- `0.0`. -/
def Time.zero : Time := ⟨0, 1⟩

/-- The time of a PTS, which counts 90000 a second. -/
def ptsTime (pts : Nat) : Time := ⟨pts, 90000⟩

/-- `ES_stream_t`.  `start` is the distance to the packet that was parsed. -/
structure EsStream where
  type : EsType
  subtype : EsType
  payloadSize : Nat
  pts : Time
  lastPts : Time
  isSynced : Bool
  lastAuEnd : Nat
  start : Nat
  size : Int
deriving DecidableEq

/-- What `memset` makes of an `ES_stream_t`. -/
def EsStream.zero : EsStream := ⟨.unset, .unset, 0, .zero, .zero, false, 0, 0, 0⟩

/-- `is_video`. -/
def EsStream.carriesVideo (tss : EsStream) : Bool :=
  tss.type.isVideo || tss.type = .slPesStream && tss.subtype.isVideo

/-- `is_audio`. -/
def EsStream.carriesAudio (tss : EsStream) : Bool :=
  tss.type.isAudio || tss.type = .slPesStream && tss.subtype.isAudio || tss.type = .pesPrivate1

/-- `new_pid`. -/
def newPid (type : EsType) : EsStream := { EsStream.zero with type := type, subtype := .unknown }

/-! ## The demuxer -/

/-- The streams that can be selected, in the order of their buffers. -/
inductive Slot where
  | audio
  | video
  | sub
deriving DecidableEq

/-- A packet that is filled: the bytes that were written to it, and how many it has room
for. -/
structure TsPack where
  buffer : List UInt8
  len : Nat
  pts : Option Time
deriving DecidableEq

/-- `av_fifo_t`. -/
structure Fifo where
  pack : Option TsPack
  offset : Nat
  bufferSize : Nat
deriving DecidableEq

/-- `sh_av_t`, with whether it has a header. -/
structure ShAv where
  id : Int
  sh : Bool
deriving DecidableEq

/-- The demuxer with its stream.  `headers` are the headers of the streams by their ids, with
the PIDs they were made for, and `queue` is what each stream was given. -/
structure TsState (T : Type) where
  reader : Reader
  packetSize : Nat
  keepBroken : Bool
  pids : Nat → Option EsStream
  streams : Nat → ShAv
  last : Slot → Int
  headers : Slot → Int → Option Nat
  fifo : Slot → Fifo
  tables : T
  id : Slot → Int
  subSid : Option Nat
  queue : Slot → List TsPack

/-- What is not modelled: the options, the program tables and what they say, and what lies in
memory behind the bytes that were read. -/
structure TsEnv (T : Type) where
  streamId : Slot → Int
  audioSubstreamId : Int
  stale : Nat → UInt8
  parsePat : Bool → List UInt8 → T → T
  parsePmt : Int → Nat → Bool → List UInt8 → T → T × List (Nat × EsType)
  parseSlSections : Nat → Bool → List UInt8 → T → T
  parseSlPacket : Nat → List UInt8 → T → EsStream → Int × T × EsStream
  hasPmt : Nat → T → Bool
  mp4Dec : Nat → T → Option EsType
  typeFromPmt : Nat → T → EsType
  progIdInPat : Nat → T → Int

variable {T : Type}

/-- Set what is known of a PID. -/
def TsState.setPid (st : TsState T) (pid : Nat) (tss : EsStream) : TsState T :=
  { st with pids := fun i => if i = pid then some tss else st.pids i }

/-- Set the buffer of a stream. -/
def TsState.setFifo (st : TsState T) (slot : Slot) (fifo : Fifo) : TsState T :=
  { st with fifo := fun i => if i = slot then fifo else st.fifo i }

/-- `ds_add_packet`. -/
def TsState.addPacket (st : TsState T) (slot : Slot) (pack : TsPack) : TsState T :=
  { st with queue := fun i => if i = slot then st.queue i ++ [pack] else st.queue i }

/-- `new_sh_audio_aid`, `new_sh_video_vid` and `new_sh_sub_sid`, which select the stream that
the user asked for. -/
def newSh (env : TsEnv T) (st : TsState T) (slot : Slot) (id : Int) (pid : Nat) :
    Option (TsState T) :=
  if 255 < id ∨ id < 0 then none
  else if (st.headers slot id).isSome then some st
  else
    let st := { st with headers := fun s i =>
      if s = slot ∧ i = id then some pid else st.headers s i }
    if (pid : Int) = env.streamId slot then
      some { st with
        id := fun s => if s = slot then id else st.id s
        subSid := if slot = .sub then some pid else st.subSid }
    else some st

/-- What `ts_add_stream` does for each kind of stream. -/
def addSlot (env : TsEnv T) (slot : Slot) (pid : Nat) (st : TsState T) : TsState T :=
  if st.last slot + 1 < 256 then
    match newSh env st slot (st.last slot) pid with
    | none => st
    | some st' =>
      { st' with
        streams := fun i => if i = pid then ⟨st.last slot, true⟩ else st'.streams i
        last := fun s => if s = slot then st.last slot + 1 else st'.last s }
  else st

/-- `ts_add_stream`. -/
def tsAddStream (env : TsEnv T) (pid : Nat) (tss : EsStream) (st : TsState T) : TsState T :=
  if (st.streams pid).sh then st
  else
    let st := if tss.type.isAudio || tss.subtype.isAudio then addSlot env .audio pid st else st
    let st := if tss.type.isVideo || tss.subtype.isVideo then addSlot env .video pid st else st
    if tss.type.isSub then addSlot env .sub pid st else st

/-! ## Buffers -/

/-- `fill_packet`: pass the packet on, unless nothing is in it. -/
def fillPacket (slot : Slot) (st : TsState T) : Nat × TsState T :=
  let fifo := st.fifo slot
  match fifo.pack with
  | none => (0, st.setFifo slot { fifo with pack := none, offset := 0 })
  | some pack =>
    if fifo.offset = 0 then (0, st.setFifo slot { fifo with pack := none, offset := 0 })
    else
      (fifo.offset, (st.addPacket slot
        { pack with buffer := pack.buffer.take fifo.offset, len := fifo.offset }).setFifo slot
          { fifo with pack := none, offset := 0 })

/-- What `ts_dump_streams` does with one of the buffers. -/
def dumpStream (slot : Slot) (st : TsState T) : TsState T :=
  let fifo := st.fifo slot
  match fifo.pack with
  | none => st
  | some pack =>
    if fifo.offset = 0 then st
    else
      (st.addPacket slot
        { pack with buffer := pack.buffer.take fifo.offset, len := fifo.offset }).setFifo slot
          { fifo with pack := none, offset := 0 }

/-- `ts_dump_streams`. -/
def tsDumpStreams (st : TsState T) : TsState T :=
  dumpStream .sub (dumpStream .video (dumpStream .audio st))

end MPlayer
