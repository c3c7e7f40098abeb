import Mathlib.Tactic.IntervalCases
import TapiOS.Util.Memory

/-!
# TCP packets, network/tcp.c, network/ipv4.c and their headers

Header fields hold the value the little-endian machine reads from memory, so a
field in network byte order is swapped by `htons` or `htonl` before arithmetic.
-/
namespace TapiOS.Network

open Util
open BitVec (ofBool ofNat)

abbrev Half := BitVec 16

/-- The macro of sys/socket.h, whose argument is promoted to 32 bits. -/
def htons (x : Word) : Word := ((x &&& 0xFF) <<< 8) ||| ((x &&& 0xFF00) >>> 8)

def htonl (x : Word) : Word :=
  ((x &&& 0xFF) <<< 24) ||| ((x &&& 0xFF00) <<< 8) ||| ((x &&& 0xFF0000) >>> 8) |||
    ((x &&& 0xFF000000) >>> 24)

abbrev Mac := Vector Byte 6

structure EthernetHeader where
  macDst : Mac
  macSrc : Mac
  ethertype : Half
  deriving DecidableEq

structure Ipv4Header where
  ihl : BitVec 4
  version : BitVec 4
  ecn : BitVec 2
  dscp : BitVec 6
  length : Half
  identification : Half
  flags : BitVec 3
  fragmentOffset : BitVec 13
  ttl : Byte
  protocol : Byte
  checksum : Half
  srcIp : Word
  destIp : Word
  deriving DecidableEq

/-- struct tcp_opts, 16 bits from RESERVED upwards. -/
structure TcpOpts where
  reserved : BitVec 3 := 0
  ns : Bool := false
  offset : BitVec 4 := 0
  fin : Bool := false
  syn : Bool := false
  rst : Bool := false
  psh : Bool := false
  ack : Bool := false
  urg : Bool := false
  ece : Bool := false
  cwr : Bool := false
  deriving DecidableEq

structure TcpHeader where
  portSrc : Half
  portDst : Half
  seqNo : Word
  ackNo : Word
  opts : TcpOpts
  windowSize : Half
  checksum : Half
  urgentPtr : Half
  deriving DecidableEq

structure TcpPacket where
  eth : EthernetHeader
  ipv4 : Ipv4Header
  tcp : TcpHeader
  data : List Byte
  deriving DecidableEq

def low (x : Word) : Half := x.extractLsb' 0 16

def high (x : Word) : Half := x.extractLsb' 16 16

/-- The header as the ten 16-bit words of its memory. -/
def Ipv4Header.words (h : Ipv4Header) : List Half :=
  [h.dscp ++ h.ecn ++ h.version ++ h.ihl, h.length, h.identification,
    h.fragmentOffset ++ h.flags, h.protocol ++ h.ttl, h.checksum,
    low h.srcIp, high h.srcIp, low h.destIp, high h.destIp]

def TcpOpts.word (o : TcpOpts) : Half :=
  ofBool o.cwr ++ ofBool o.ece ++ ofBool o.urg ++ ofBool o.ack ++
    ofBool o.psh ++ ofBool o.rst ++ ofBool o.syn ++ ofBool o.fin ++
    o.offset ++ ofBool o.ns ++ o.reserved

def TcpHeader.words (h : TcpHeader) : List Half :=
  [h.portSrc, h.portDst, low h.seqNo, high h.seqNo, low h.ackNo, high h.ackNo, h.opts.word,
    h.windowSize, h.checksum, h.urgentPtr]

/-- The payload in 16-bit words, an odd last byte alone. -/
def dataWords : List Byte → List Half
  | [] => []
  | [a] => [a.setWidth 16]
  | a :: b :: rest => (b ++ a) :: dataWords rest

/-- `tmp` summed over 16-bit words. -/
def sumWords (ws : List Half) : Word := ws.foldl (fun tmp w => tmp + w.setWidth 32) 0

/-- `~(u16ptr[0] + u16ptr[1])` as a uint16_t. -/
def foldSum (tmp : Word) : Half := ~~~ (low tmp + high tmp)

def ipv4Checksum (h : Ipv4Header) : Half := foldSum (sumWords h.words)

/-- tcp_checksum with `data_len` the length of the payload. -/
def tcpChecksum (p : TcpPacket) : Half :=
  foldSum (sumWords [low p.ipv4.srcIp, high p.ipv4.srcIp, low p.ipv4.destIp, high p.ipv4.destIp] +
    htons 6 + htons (20 + ofNat 32 p.data.length) +
    sumWords (p.tcp.words ++ dataWords p.data))

/-- The static `next` of util/random.c, stepped by one call of rand. -/
def nextRandom (next : Word) : Word := next * 1103515245 + 12345

/-- The value rand returns after that step. -/
def randValue (next : Word) : Word := (next / 65536) % 2147483648

structure SockaddrIn where
  sinFamily : Half
  sinPort : Half
  sinAddr : Word
  sinZero : Vector Byte 8
  deriving DecidableEq

def MY_IP : Word := 0x14000002

/-- tcp_build_packet for a device with address `mac`; `next` is the state of the
random number generator after its rand. -/
def tcpBuildPacket (mac destMac : Mac) (sinAddr : Word) (sinPort : Half) (opts : TcpOpts)
    (data : List Byte) (next : Word) : TcpPacket :=
  let ip : Ipv4Header :=
    { ihl := 5, version := 4, ecn := 0, dscp := 0,
      length := (htons (5 * 4 + 20 + ofNat 32 data.length)).setWidth 16,
      identification := 0, flags := 0, fragmentOffset := 0, ttl := 64, protocol := 6,
      checksum := 0, srcIp := htonl MY_IP, destIp := sinAddr }
  { eth := { macDst := destMac, macSrc := mac, ethertype := (htons 0x0800).setWidth 16 }
    ipv4 := { ip with checksum := ipv4Checksum ip }
    tcp :=
      { portSrc := 0, portDst := sinPort, seqNo := randValue next, ackNo := 0,
        opts := { opts with offset := 5 }, windowSize := (htons 8192).setWidth 16,
        checksum := 0, urgentPtr := 0 }
    data := data }

/-- Store the ports and numbers, then the checksum, as every sender does. -/
def TcpPacket.finish (p : TcpPacket) (portSrc : Half) (seqNo ackNo : Word) : TcpPacket :=
  let p := { p with tcp := { p.tcp with portSrc := portSrc, seqNo := seqNo, ackNo := ackNo } }
  { p with tcp := { p.tcp with checksum := tcpChecksum p } }

theorem htons_setWidth (x : Word) : ((htons x).setWidth 16).setWidth 32 = htons x := by
  apply BitVec.eq_of_getLsbD_eq
  intro i hi
  simp only [htons, BitVec.getLsbD_setWidth, BitVec.getLsbD_or, BitVec.getLsbD_and,
    BitVec.getLsbD_shiftLeft, BitVec.getLsbD_ushiftRight]
  interval_cases i <;> simp

@[simp] theorem htonl_htonl (x : Word) : htonl (htonl x) = x := by
  apply BitVec.eq_of_getLsbD_eq
  intro i hi
  simp only [htonl, BitVec.getLsbD_or, BitVec.getLsbD_and, BitVec.getLsbD_shiftLeft,
    BitVec.getLsbD_ushiftRight]
  interval_cases i <;> simp [BitVec.getLsbD_of_ge]

end TapiOS.Network
