import Mathlib.Algebra.Order.Floor.Div
import BoAtom.Lib.Layout
import BoAtom.NetTool.Transfer
import BoAtom.Upgrade.Crc32

/-! # Sending the firmware

    `send_file` of `test_client.c`: the file is cut into frames of two packed
    headers and a payload, and each frame is acknowledged before the next
    one.  The frame and the acknowledgement are built and received in one
    buffer. -/

namespace BoAtom.Upgrade

open Memory Layout

/-! ## Section 1: The frame -/

def sndBufsize : Nat := 1280

/-- `tagMsgHead_t`: the offsets of its fields and its size. -/
structure MsgHead where
  Magic1 : Nat := 0
  Pktlen : Nat := 4
  Version : Nat := 8
  Hwtype : Nat := 10
  Sn : Nat := 12
  CmdType : Nat := 16
  CmdSubType : Nat := 18
  DataType : Nat := 20
  Rev1 : Nat := 22
  Rev2 : Nat := 24
  Rev3 : Nat := 28
  size : Nat := 32

/-- `app_net_tcp_sys_update_head_t`, the same; `start` is where it begins. -/
structure UpdateHead where
  start : Nat
  ip_include : Nat := start
  file_len : Nat := start + 4
  total_frame : Nat := start + 8
  cur_frame : Nat := start + 12
  crc : Nat := start + 16
  reserve : Nat := start + 20
  size : Nat := 36

def frameHead : MsgHead := {}

def fileHead : UpdateHead := { start := frameHead.size }

/-- The payload begins behind the two headers. -/
def payloadAt : Nat := frameHead.size + fileHead.size

/-- The most `send_file` reads at once. -/
def blockSize : Nat := sndBufsize - frameHead.size - fileHead.size

def dataTypeCmd : UInt16 := 0x0001
def netSys : UInt16 := 0x0001
def sysNuclearUpdate : UInt16 := 0x000a

/-- `htons` and `htonl`, as the bytes they leave in memory. -/
def htons (v : UInt16) : Bytes := bytes16 .big v

def htonl (v : UInt32) : Bytes := bytes32 .big v

def ntohl (bs : Bytes) : UInt32 := word32 .big bs

/-- `BUILD_MSG_HEADER2`: `Pktlen` and `Hwtype` stay in host order. -/
def buildMsgHeader2 (host : Endian) (cmd_type cmd_sub_type data_type : UInt16)
    (pkt_len sn : UInt32) : List (Nat × Bytes) :=
  [(frameHead.Magic1, [0xf5]),
   (frameHead.Magic1 + 1, [0x5a]),
   (frameHead.Magic1 + 2, [0xa5]),
   (frameHead.Magic1 + 3, [0x5f]),
   (frameHead.CmdType, htons cmd_type),
   (frameHead.CmdSubType, htons cmd_sub_type),
   (frameHead.DataType, htons data_type),
   (frameHead.Pktlen, bytes32 host pkt_len),
   (frameHead.Version, htons 0x15),
   (frameHead.Hwtype, bytes16 host 1),
   (frameHead.Sn, htonl sn)]

/-- `ceil(st_size / 1212.0)`. -/
def totalFrame (st_size : Nat) : Nat := st_size ⌈/⌉ blockSize

/-- The buffer, once the block `bs` has been read into it and the headers
    have been written. -/
def buildFrame (host : Endian) (st_size cur_frame : Nat) (bs buf : Bytes) : Bytes :=
  let buf := overlay buf payloadAt bs
  let buf := writeAll buf
    (buildMsgHeader2 host netSys sysNuclearUpdate dataTypeCmd (.ofNat (payloadAt + bs.length)) 1)
  let buf := overlay buf fileHead.cur_frame (htonl (.ofNat cur_frame))
  let buf := overlay buf fileHead.file_len (htonl (.ofNat st_size))
  let crc_result := crc32 (field buf payloadAt bs.length)
  let buf := overlay buf fileHead.crc (htonl crc_result)
  overlay buf fileHead.total_frame (htonl (.ofNat (totalFrame st_size)))

/-! ## Section 2: `send_file` -/

/-- What `read` on the file gives. -/
inductive FileRead where
  | failed
  /-- What is left of the file; nothing at its end. -/
  | data (bs : Bytes)

/-- How the socket behaves while one frame is sent and its acknowledgement
    is read. -/
structure Exchange where
  writes : List (Attempt Nat)
  reads : List (Attempt Bytes)

/-- The bytes of an acknowledgement: the message header and the state. -/
def ackSize : Nat := frameHead.size + 4

def appNetTcpStateSuccess : UInt32 := 0

/-- The loop, with the frames that have gone out.  The result is missing
    while the function has not returned. -/
def sendLoop (host : Endian) (st_size : Nat) :
    List FileRead → List Exchange → Nat → Bytes → Option Int × List Bytes
  | [], _, _, _ => (none, [])
  | .failed :: _, _, _, _ => (some (-1), [])
  | .data rest :: files, peer, cur_frame, buf =>
    let bs := rest.take blockSize
    if bs = [] then (some 0, [])
    else
      match peer with
      | [] => (none, [])
      | x :: peer =>
        let buf := buildFrame host st_size cur_frame bs buf
        match writen buf (payloadAt + bs.length) x.writes with
        | (none, sent) => (none, [sent])
        | (some ret, sent) =>
          if ret < 0 then (some (-1), [sent])
          else
            match readn ackSize x.reads with
            | (none, _) => (none, [sent])
            | (some ret, ack) =>
              if ret < 0 then (some (-1), [sent])
              else
                let buf := overlay buf 0 ack
                if ntohl (buf.drop frameHead.size) ≠ appNetTcpStateSuccess then (some (-1), [sent])
                else
                  let (ret, frames) := sendLoop host st_size files peer (cur_frame + 1) buf
                  (ret, sent :: frames)

/-- `stat` is the size `fstat` gives, if it succeeds. -/
def sendFile (host : Endian) (stat : Option Nat) (files : List FileRead) (peer : List Exchange) :
    Option Int × List Bytes :=
  match stat with
  | none => (some (-1), [])
  | some st_size => sendLoop host st_size files peer 1 (List.replicate sndBufsize 0)

end BoAtom.Upgrade
