import Koh.Server.Pace
import Koh.Server.Typing

/-!
# A client's end of a connection

The client's `Wire`, from `client/mod.rs`, as far as it is shown anything: the reader of an
epoch's stream, the queue it hands what it read to, and the control messages that wait for
their writer.

## Main definitions

- `FromServer`: what a reader hands on
- `Reader`: the reader of the newest epoch's stream
- `Wire`: the queues, and the epoch the client is in

## Design notes

The reader before any is of epoch 0, which no stream carries. A reader whose stream is reset
reads no more. Input goes on a stream of its own and is no part of this module.
-/

namespace Koh.Client

open Koh.Lib Koh.Server

variable {K C : Type}

/-- How many control messages may wait for their writer, and decoded ones for the loop. -/
def controlQueue : ℕ := 64

def readerQueue : ℕ := 64

/-- Most bytes of a stream read at once. -/
def chunkMost : ℕ := 64 * 1024

/-- The bytes before a stream's first message. -/
def header : ℕ := 5

inductive FromServer where
  | shown (epoch : ℕ) (msg : Shown)
  /-- So many bytes of the epoch were read. -/
  | read (epoch bytes : ℕ)
  deriving DecidableEq

structure Reader where
  epoch : ℕ
  bytes : ℕ
  /-- The messages decoded. -/
  decoded : List Shown
  /-- What it has yet to hand on. -/
  pending : List FromServer
  deriving DecidableEq

namespace Reader

def new (epoch : ℕ) : Reader := ⟨epoch, header, [], []⟩

def taken (r : Reader) : ℕ := r.bytes - header

/-- It reads a chunk of `count` bytes of a stream that carries `msgs`. -/
def chunk (body : Shown → ℕ) (r : Reader) (msgs : List Shown) (count : ℕ) : Reader :=
  let bytes := r.bytes + count
  let decoded := whole (framed body) msgs (bytes - header)
  { r with
    bytes := bytes
    decoded := decoded
    pending := (decoded.drop r.decoded.length).map (.shown r.epoch) ++ [.read r.epoch bytes] }

end Reader

structure Wire (K C : Type) where
  reader : Reader
  rx : List FromServer
  /-- The epoch whose messages the client shows. -/
  epoch : ℕ
  /-- Messages that wait for the control stream's writer. -/
  control : List (ClientMsg K C)
  /-- The run is over. -/
  left : Bool
  deriving DecidableEq

namespace Wire

def open_ : Wire K C := ⟨.new 0, [], 0, [], false⟩

def send (w : Wire K C) (msg : ClientMsg K C) : Wire K C :=
  if w.control.length < controlQueue then { w with control := w.control ++ [msg] } else w

def heard (w : Wire K C) : FromServer → Wire K C
  | .read epoch bytes => if epoch = w.epoch then w.send (.read epoch bytes) else w
  | .shown epoch msg =>
    if epoch < w.epoch then w
    else match msg with
      | .exit _ _ => { w with epoch := epoch, left := true }
      | _ => { w with epoch := epoch }

end Wire

/-- Whether what a client in epoch `epoch` takes is the end. -/
def FromServer.isEnd (epoch : ℕ) : FromServer → Bool
  | .shown n (.exit _ _) => epoch ≤ n
  | _ => false

end Koh.Client
