import MPlayer.Ts.Basic

/-!
# Program map tables

What the demuxer keeps of the PMT of a program and of the MPEG-4 descriptors in it.
-/

namespace MPlayer

/-- `mp4_sl_config_t`, as far as it is read. -/
structure Mp4SlConfig where
  auStart : Bool
  auEnd : Bool
  randomAccesspoint : Bool
  padding : Bool
  useTs : Bool
  idle : Bool
  tsResolution : UInt32
  tsLen : UInt8
  ocrLen : UInt8
  auLen : UInt8
  instantBitrateLen : UInt8
  degrLen : UInt8
  auSeqnumLen : UInt8
  packetSeqnumLen : UInt8
  deriving DecidableEq

/-- What `stream_type` may be: a video or an audio stream, one of object descriptors, or another
one, and the zero that `memset` leaves. -/
inductive Mp4StreamType where
  | unset
  | unknown
  | video
  | audio
  | mp4Od
  deriving DecidableEq

/-- `mp4_decoder_config_t`.  `buf` has `buf_size` bytes. -/
structure Mp4DecoderConfig where
  objectType : EsType
  streamType : Mp4StreamType
  buf : List UInt8
  deriving DecidableEq

/-- `mp4_es_descr_t`. -/
structure Mp4EsDescr where
  id : UInt16
  decoder : Mp4DecoderConfig
  sl : Mp4SlConfig
  deriving DecidableEq

/-- `struct pmt_es_t`. -/
structure PmtEs where
  pid : UInt16
  type : EsType
  descrLength : UInt16
  formatDescriptor : List UInt8
  lang : List UInt8
  mp4EsId : UInt16
  deriving DecidableEq

/-- `pmt_t`, as far as it is read behind `parse_pmt`. -/
structure Pmt where
  es : List PmtEs
  mp4es : List Mp4EsDescr
  deriving DecidableEq

end MPlayer
