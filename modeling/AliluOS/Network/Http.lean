import AliluOS.Text.Bytes

/-! The HTTP client of `network.rs` over its simulated TCP socket. `none` is a panic. The
source puts nothing on a line; the wire here is what the sockets were given to send. -/

namespace AliluOS.Network
open Text

/-- The payloads in the order in which they were sent. -/
abbrev Wire := List (List UInt8)

abbrev Net := StateT Wire Option

namespace Net

variable {α : Type}

def answer (t : Net α) : Option α := (t []).map Prod.fst

theorem bind_eq {β : Type} (t : Net α) (f : α → Net β) (wire : Wire) :
    (t >>= f) wire = (t wire).bind fun r => f r.1 r.2 := rfl

theorem lift_some (a : α) (wire : Wire) : (liftM (some a) : Net α) wire = some (a, wire) := rfl

end Net

structure Ipv4Address where
  bytes : List UInt8
deriving DecidableEq

inductive TcpState
  | closed
  | synSent
  | established
  | finWait
deriving DecidableEq

structure TcpSocket where
  localPort : Nat
  remoteIp : Ipv4Address
  remotePort : Nat
  state : TcpState
  seqNo : Nat
  ackNo : Nat
  rxBuffer : List UInt8

namespace TcpSocket

def new (localPort : Nat) : TcpSocket := ⟨localPort, ⟨[0, 0, 0, 0]⟩, 0, .closed, 1000, 0, []⟩

/-- `u32` addition, which panics past its range in the dev profile. -/
def addU32 (a b : Nat) : Option Nat := if a + b < 2 ^ 32 then some (a + b) else none

def connect (s : TcpSocket) (remoteIp : Ipv4Address) (remotePort : Nat) : Option TcpSocket := do
  let seqNo ← addU32 s.seqNo 1
  return { s with
    remoteIp := remoteIp, remotePort := remotePort, state := .established,
    seqNo := seqNo, ackNo := 1 }

def send (s : TcpSocket) (data : List UInt8) : Net (Except Str TcpSocket) := do
  if s.state ≠ .established then return .error "TCP socket is not connected"
  let seqNo ← addU32 s.seqNo (data.length % 2 ^ 32)
  modify (· ++ [data])
  return .ok { s with seqNo := seqNo }

end TcpSocket

def resolveDomainName (domain : Str) : Except Str Ipv4Address :=
  if domain = "example.com".toList ∨ domain = "www.example.com".toList then
    .ok ⟨[93, 184, 216, 34]⟩
  else if domain = "npr.org".toList ∨ domain = "text.npr.org".toList then .ok ⟨[151, 101, 1, 67]⟩
  else if domain = "github.com".toList ∨ domain = "www.github.com".toList then
    .ok ⟨[140, 82, 121, 4]⟩
  else .ok ⟨[52, 142, 124, 215]⟩

structure HttpResponse where
  statusCode : Nat
  contentType : Str
  body : Str

def hostAndPath (url : Str) : Str × Str :=
  let cleaned :=
    if "http://".toList.isPrefixOf url then url.drop 7
    else if "https://".toList.isPrefixOf url then url.drop 8
    else url
  let host := cleaned.takeWhile (· ≠ '/')
  (host, '/' :: (cleaned.drop host.length).tail)

def request (host path : Str) : Str :=
  "GET ".toList ++ path ++ " HTTP/1.1\r\nHost: ".toList ++ host ++
    ("\r\nUser-Agent: AliluOS-TextBrowser/1.0\r\nAccept: text/html, text/plain\r\n" ++
      "Connection: close\r\n\r\n").toList

/-- What `http_get` reads when the receive buffer of the socket is empty. No code
puts anything into it. -/
def emptyRxPayload : Str :=
  ("<html><head><title>DuckDuckGo Text Search</title></head><body><h1>DuckDuckGo Privacy Search" ++
    "</h1><p>Privacy, simplified. Search the web without being tracked.</p>" ++
    "<a href=\"http://html.duckduckgo.com/html/?q=aliluos\">Search AliluOS</a></body></html>").toList

def badPayload : Str :=
  ("<html><body><h1>Error</h1><p>Failed to parse network packet payload as UTF-8 text.</p>" ++
    "</body></html>").toList

def payload (rxBuffer : List UInt8) : Str :=
  if rxBuffer.isEmpty then emptyRxPayload
  else (String.fromUTF8? ⟨rxBuffer.toArray⟩).elim badPayload String.toList

def requestOf (url : Str) : Str := request (hostAndPath url).1 (hostAndPath url).2

def httpGet (url : Str) : Net (Except Str HttpResponse) :=
  match resolveDomainName (hostAndPath url).1 with
  | .error e => return .error e
  | .ok ip => do
    let socket ← (TcpSocket.new 49152).connect ip 80
    match ← socket.send (asBytes (requestOf url)) with
    | .error e => return .error e
    | .ok socket => return .ok ⟨200, "text/html", payload socket.rxBuffer⟩

theorem exists_resolveDomainName (domain : Str) : ∃ ip, resolveDomainName domain = .ok ip := by
  unfold resolveDomainName
  split_ifs <;> exact ⟨_, rfl⟩

theorem payload_nil : payload [] = emptyRxPayload := if_pos rfl

theorem TcpSocket.send_established {s : TcpSocket} (h : s.state = .established)
    (data : List UInt8) (wire : Wire) : s.send data wire =
      (addU32 s.seqNo (data.length % 2 ^ 32)).map fun seqNo =>
        (.ok { s with seqNo := seqNo }, wire ++ [data]) := by
  unfold send
  rw [if_neg (not_not.mpr h)]
  cases addU32 s.seqNo (data.length % 2 ^ 32) <;> rfl

theorem httpGet_eq (url : Str) (wire : Wire) : httpGet url wire =
    if 1001 + utf8Len (requestOf url) % 2 ^ 32 < 2 ^ 32 then
      some (.ok ⟨200, "text/html", emptyRxPayload⟩, wire ++ [asBytes (requestOf url)])
    else none := by
  obtain ⟨ip, hip⟩ := exists_resolveDomainName (hostAndPath url).1
  have hconnect : (TcpSocket.new 49152).connect ip 80 =
      some ⟨49152, ip, 80, .established, 1001, 1, []⟩ := rfl
  have hsend := TcpSocket.send_established (s := ⟨49152, ip, 80, .established, 1001, 1, []⟩) rfl
    (asBytes (requestOf url)) wire
  rw [length_asBytes, TcpSocket.addU32] at hsend
  unfold httpGet
  rw [hip]
  dsimp only
  rw [hconnect, Net.bind_eq, Net.lift_some, Option.bind_some]
  dsimp only
  rw [Net.bind_eq, hsend]
  split_ifs with hlen
  · rw [Option.map_some, Option.bind_some, ← payload_nil]
    rfl
  · rfl

theorem answer_httpGet (url : Str) : (httpGet url).answer =
    if 1001 + utf8Len (requestOf url) % 2 ^ 32 < 2 ^ 32 then
      some (.ok ⟨200, "text/html", emptyRxPayload⟩) else none := by
  rw [Net.answer, httpGet_eq]
  split_ifs <;> rfl

end AliluOS.Network
