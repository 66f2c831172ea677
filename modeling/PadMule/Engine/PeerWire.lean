import PadMule.Engine.BlockReceiver
import PadMule.Engine.SearchResults
import PadMule.Engine.SourceExchange

/-
  `mule-engine/src/transfer.rs`: the packets of one file request, from both ends.

  `Ask` is what the downloading end sends, `ServeReply.packet` what the serving end answers with.
  A source answer is given as the other end unpacks it. The serving end finds the file's hash at
  the head of every request but two: an OP_REQUESTSOURCES2 leads with its version, so it is scored
  under a hash of its own (`headHash_sources`).
-/

namespace PadMule.Engine

open PadMule.Proto SourceExchange

def OP_FILEREQANSNOFIL : UInt8 := 0x48
def OP_ASKSHAREDFILESANSWER : UInt8 := 0x4B
def OP_ACCEPTUPLOADREQ : UInt8 := 0x55
def OP_REQFILENAMEANSWER : UInt8 := 0x59
def OP_ASKSHAREDDIRSANS : UInt8 := 0x5F
def OP_ASKSHAREDFILESDIRANS : UInt8 := 0x60
def OP_ASKSHAREDDENIEDANS : UInt8 := 0x61
def OP_QUEUERANKING : UInt8 := 0x60
def OP_MULTIPACKETANSWER : UInt8 := 0x93

def PADMULE_SHARED_DIR : String := "Incoming"

/-- Comments are capped at 50 chars. -/
def MAX_FILE_COMMENT_LEN : Nat := 50

def QUEUE_RANKING_LEN : Nat := 12

def FILE_COMPLETE_ID : UInt32 := 0xFBFBFBFB
def FILE_COMPLETE_PORT : UInt16 := 0xFBFB

/-! ## Requests -/

def hashOnly (opcode : UInt8) (hash : Hash16) : Packet := ⟨PROT_EDONKEY, opcode, hash.bytes⟩

/-- The name, with the extended info of a client that holds no part yet. -/
def buildRequestFilenameExt (hash : Hash16) : Packet :=
  ⟨PROT_EDONKEY, OP_REQUESTFILENAME, hash.bytes ++ (writeU16 0 ++ writeU16 0)⟩

def buildSetReqFileId (hash : Hash16) : Packet := hashOnly OP_SETREQFILEID hash

def buildStartUploadReq (hash : Hash16) : Packet := hashOnly OP_STARTUPLOADREQ hash

def buildHashsetRequest (hash : Hash16) : Packet := hashOnly OP_HASHSETREQUEST hash

/-- Version, options and hash. -/
def buildRequestSources2 (hash : Hash16) (version : UInt8) : Packet :=
  ⟨PROT_EMULE, OP_REQUESTSOURCES2, writeU8 version ++ (writeU16 0 ++ hash.bytes)⟩

def buildAichFileHashReq (hash : Hash16) : Packet := ⟨PROT_EMULE, OP_AICHFILEHASHREQ, hash.bytes⟩

/-- What `run_peer` sends. -/
inductive Ask where
  | secIdent (pkt : Packet)
  | filename
  | setFile
  | sources
  | aichRoot
  | hashset
  | startUpload
  | parts (blocks : List Block)
deriving DecidableEq

/-- A block as the wire names it. -/
def wireBlock (b : Block) : UInt64 × UInt64 := (.ofNat b.1, .ofNat b.2)

def Ask.packet (hash : Hash16) : Ask → Packet
  | .secIdent pkt => pkt
  | .filename => buildRequestFilenameExt hash
  | .setFile => buildSetReqFileId hash
  | .sources => buildRequestSources2 hash SOURCE_EXCHANGE_VERSION
  | .aichRoot => buildAichFileHashReq hash
  | .hashset => buildHashsetRequest hash
  | .startUpload => buildStartUploadReq hash
  | .parts blocks => buildRequestParts hash (blocks.map wireBlock)

/-! ## Answers -/

def buildReqFilenameAnswer (hash : Hash16) (name : Bytes) : Packet :=
  ⟨PROT_EDONKEY, OP_REQFILENAMEANSWER, hash.bytes ++ writeStringU16 name⟩

/-- A part count of 0 is a complete source. -/
def buildFileStatusComplete (hash : Hash16) : Packet :=
  ⟨PROT_EDONKEY, OP_FILESTATUS, hash.bytes ++ writeU16 0⟩

def buildFileReqAnsNoFil (hash : Hash16) : Packet := ⟨PROT_EDONKEY, OP_FILEREQANSNOFIL, hash.bytes⟩

def buildFileDesc (rating : UInt8) (comment : String) : Packet :=
  let text := utf8 (String.ofList (comment.toList.take MAX_FILE_COMMENT_LEN))
  ⟨PROT_EMULE, OP_FILEDESC, writeU8 (min rating 5) ++ (writeU32 (.ofNat text.length) ++ text)⟩

/-- The answer to a multipacket of a complete source: name, status and, if asked for, the AICH
    root. -/
def buildMultipacketAnswer (hash : Hash16) (name : Bytes) (aichRoot : Option Hash20) : Packet :=
  ⟨PROT_EMULE, OP_MULTIPACKETANSWER,
    hash.bytes ++ (writeU8 OP_REQFILENAMEANSWER ++ (writeStringU16 name ++ (writeU8 OP_FILESTATUS ++
      (writeU16 0 ++ (aichRoot.map fun root => writeU8 OP_AICHFILEHASHANS ++ root.bytes).getD []))))⟩

def buildAichFileHashAns (hash : Hash16) (root : Hash20) : Packet :=
  ⟨PROT_EMULE, OP_AICHFILEHASHANS, hash.bytes ++ root.bytes⟩

def buildAichAnswer (hash : Hash16) (part : UInt16) (root : Hash20) (recovery : Bytes) : Packet :=
  ⟨PROT_EMULE, OP_AICHANSWER, hash.bytes ++ (writeU16 part ++ (root.bytes ++ recovery))⟩

/-- The refusal: the hash alone. -/
def buildAichAnswerFailure (hash : Hash16) : Packet := ⟨PROT_EMULE, OP_AICHANSWER, hash.bytes⟩

def buildAcceptUpload : Packet := ⟨PROT_EDONKEY, OP_ACCEPTUPLOADREQ, []⟩

def buildQueueRanking (rank : UInt16) : Packet :=
  ⟨PROT_EMULE, OP_QUEUERANKING, writeU16 rank ++ List.replicate (QUEUE_RANKING_LEN - 2) 0⟩

def buildOutOfPartReqs : Packet := ⟨PROT_EDONKEY, OP_OUTOFPARTREQS, []⟩

/-- The list of a browse: the records of an offer. -/
def browsed (files : List OfferedFile) : Bytes :=
  (buildOfferFiles files FILE_COMPLETE_ID FILE_COMPLETE_PORT).payload

def ServeReply.packet : ServeReply → Packet
  | .sharedDirs => ⟨PROT_EDONKEY, OP_ASKSHAREDDIRSANS,
      writeU32 1 ++ writeStringU16 (utf8 PADMULE_SHARED_DIR)⟩
  | .sharedFilesDir asked files => ⟨PROT_EDONKEY, OP_ASKSHAREDFILESDIRANS,
      writeStringU16 asked ++ browsed files⟩
  | .sharedFiles files => ⟨PROT_EDONKEY, OP_ASKSHAREDFILESANSWER, browsed files⟩
  | .sharedDenied => ⟨PROT_EDONKEY, OP_ASKSHAREDDENIEDANS, []⟩
  | .reqFilenameAnswer hash name => buildReqFilenameAnswer hash name
  | .fileDesc rating comment => buildFileDesc rating comment
  | .fileStatusComplete hash => buildFileStatusComplete hash
  | .fileReqAnsNoFil hash => buildFileReqAnsNoFil hash
  | .multipacketAnswer hash name aichRoot => buildMultipacketAnswer hash name aichRoot
  | .answerSources hash sources version sx2 =>
    ⟨PROT_EMULE, if sx2 then OP_ANSWERSOURCES2 else OP_ANSWERSOURCES,
      answerPayload hash sources version sx2⟩
  | .hashsetAnswer hash partHashes => buildHashsetAnswer hash partHashes
  | .aichFileHashAns hash root => buildAichFileHashAns hash root
  | .aichAnswer hash part root recovery => buildAichAnswer hash part root recovery
  | .aichAnswerFailure hash => buildAichAnswerFailure hash
  | .acceptUpload => buildAcceptUpload
  | .queueRanking rank => buildQueueRanking rank
  | .outOfPartReqs => buildOutOfPartReqs
  | .sendingPart hash start stop data => buildSendingPart hash start stop data
  | .secIdent pkt => pkt

/-! ## What the other end reads -/

theorem headHash_append (hash : Hash16) (rest : Bytes) : headHash (hash.bytes ++ rest) = some hash := by
  have hlen : 16 ≤ (hash.bytes ++ rest).length := by
    rw [List.length_append, hash.len]
    omega
  have htake : (hash.bytes ++ rest).take 16 = hash.bytes :=
    List.take_left' hash.len
  rw [headHash, dif_pos hlen]
  exact congrArg some (Digest.ext_bytes htake)

theorem headHash_bytes (hash : Hash16) : headHash hash.bytes = some hash := by
  have h := headHash_append hash []
  rwa [List.append_nil] at h

theorem parseFileStatus_complete (hash : Hash16) :
    parseFileStatus (buildFileStatusComplete hash).payload = .ok ⟨hash, true, []⟩ := by
  have hread : readFileStatus (hash.bytes ++ writeU16 0) = .ok (⟨hash, true, []⟩, []) := by
    rw [readFileStatus, Readers.bind_ok (reads_hash16 hash _),
      Readers.bind_ok (Readers.Reads.run_nil (reads_u16 0)), if_pos rfl]
    rfl
  rw [parseFileStatus, parse, buildFileStatusComplete, hread]
  rfl

end PadMule.Engine
