import ClearSign.Command.Upload
import ClearSign.Session.Basic

/-!
This module contains the commands of the application and what each one does to a session.
-/

namespace ClearSign

structure Answer where
  status : Status
  body : Bytes := []
  deferred : Bool := false
  deriving DecidableEq, Repr

namespace Session

def versionBody (device : Device) : Bytes :=
  -- The byte in front of the target would tell that the device is locked, but then no command gets
  -- here.
  let (major, minor, patch) := applicationVersion
  [if device.testBuild then 1 else 0] ++ bigEndian16 major ++ bigEndian16 minor ++
    bigEndian16 patch ++ [0] ++ bigEndian32 device.target

def getVersion (device : Device) (frame : Frame) : Answer :=
  if frame.buffer.length < (versionBody device).length + 2 then
    { status := .outputBufferTooSmall }
  else { status := .success, body := versionBody device }

def getAddress (keys : Keystore) (session : Session) (frame : Frame) : Session × Answer :=
  match frame.payload with
  | .error _ => (session, { status := .wrongLength })
  | .ok payload =>
    match KeyPath.read payload with
    | .error status => (session, { status })
    | .ok path =>
      match keys.publicKey path with
      | none => (session, { status := .executionError })
      | some key =>
        if frame.p1 ≥ 1 then
          -- A confirmation replaces whatever was in flight.
          ({ session.reset with prompt := .address key }, { status := .success, deferred := true })
        else if frame.buffer.length < key.bytes.length + 2 then
          (session, { status := .outputBufferTooSmall })
        else (session, { status := .success, body := key.bytes })

def readRequest (device : Device) (kind : PayloadKind) (key : Octets 32) :
    Attempt Session Unit := do
  let session ← get
  let source := session.buffer.contents
  match kind with
  | .json =>
    (Transaction.readJson device source key).within (·.transaction)
      fun transaction session => { session with transaction }
  | .digest =>
    (Transaction.readDigest device source key session.expert).within (·.transaction)
      fun transaction session => { session with transaction }
  | .transfer =>
    (Transaction.readTransfer device source key).within
      (fun session => (session.transaction, session.expansion))
      fun (transaction, expansion) session => { session with transaction, expansion }

def prepareReview (device : Device) (kind : PayloadKind) (key : Octets 32) :
    Attempt Session Unit := do
  readRequest device kind key
  let session ← get
  session.transaction.validate session.source

def refusal (fault : Fault) (frame : Frame) : Answer where
  -- The reason is cut if the buffer has no room for it and the status word.
  status := .dataInvalid
  body := (ascii fault.message).take (frame.buffer.length - 2)

def initialized (session : Session) (kind : PayloadKind) : Bool :=
  session.uploading && (session.request.map Prod.snd) == some kind

def startUpload (session : Session) (kind : PayloadKind) (payload : Bytes) : Session × Answer :=
  let session := session.reset
  match KeyPath.read payload with
  | .error status => (session, { status })
  | .ok path =>
    ({ session with request := some (path, kind), uploading := true }, { status := .success })

def completeUpload (device : Device) (keys : Keystore) (session : Session)
    (kind : PayloadKind) (frame : Frame) : Session × Answer :=
  let session := { session with uploading := false }
  match session.request with
  | none => (session, { status := .transactionNotInitialized })
  | some (path, _) =>
    match keys.publicKey path with
    | none => (session.reset, { status := .executionError })
    | some key =>
      match (prepareReview device kind key).perform session with
      | (.ok (), session) =>
        ({ session with prompt := .sign }, { status := .success, deferred := true })
      | (.error fault, session) => (session.reset, refusal fault frame)

def sign (device : Device) (keys : Keystore) (kind : PayloadKind) (session : Session)
    (frame : Frame) : Session × Answer :=
  -- A packet that is refused ends the upload.
  match Upload.receive session.buffer (session.initialized kind) frame with
  | .error status => (session.reset, { status })
  | .ok (progress, buffer) =>
    let session := { session with buffer }
    match progress with
    | .started payload => session.startUpload kind payload
    | .ongoing => (session, { status := .success })
    | .complete => session.completeUpload device keys kind frame

end Session

inductive Instruction where
  | getVersion
  | getAddress
  | sign (kind : PayloadKind)
  deriving DecidableEq, Repr

namespace Instruction

def toByte : Instruction → UInt8
  | .getVersion => 0x20
  | .getAddress => 0x21
  | .sign .json => 0x22
  | .sign .digest => 0x23
  | .sign .transfer => 0x24

def all : List Instruction :=
  [.getVersion, .getAddress, .sign .json, .sign .digest, .sign .transfer]

def ofByte? (byte : UInt8) : Option Instruction :=
  all.find? fun instruction => instruction.toByte == byte

theorem ofByte?_toByte (instruction : Instruction) :
    ofByte? instruction.toByte = some instruction := by
  rcases instruction with _ | _ | (_ | _ | _) <;> rfl

end Instruction

namespace Session

def dispatch (device : Device) (keys : Keystore) (session : Session) (frame : Frame) :
    Session × Answer :=
  if frame.instructionClass ≠ 0 then (session, { status := .classNotSupported })
  else
    match Instruction.ofByte? frame.instruction with
    | none => (session, { status := .instructionNotSupported })
    | some .getVersion => (session, getVersion device frame)
    | some .getAddress => session.getAddress keys frame
    | some (.sign kind) => session.sign device keys kind frame

end Session

structure Exchange where
  buffer : Bytes
  tx : Nat
  flags : Nat
  deriving DecidableEq, Repr

namespace Exchange

def deferredFlag : Nat := 0x10

def conclude (exchange : Exchange) (status : Status) : Exchange :=
  -- The reply is dropped if the buffer has no room for the status word behind it.
  if exchange.tx + 2 ≤ exchange.buffer.length then
    { exchange with
      buffer := exchange.buffer.take exchange.tx ++ status.toBytes ++
        exchange.buffer.drop (exchange.tx + 2)
      tx := exchange.tx + 2 }
  else { exchange with tx := 0 }

def ofAnswer (answer : Answer) (frame : Frame) : Exchange where
  buffer := overwrite frame.buffer answer.body
  tx := answer.body.length
  flags := if answer.deferred then deferredFlag else 0

end Exchange

namespace Session

/--
Run the command in a buffer of which `received` bytes were received, and reply in the same buffer. A
command without a whole header leaves everything else as it was.
-/
def exchange (device : Device) (keys : Keystore) (session : Session) (received : Nat)
    (before : Exchange) : Session × Exchange :=
  match Frame.ofBuffer before.buffer received with
  | .error _ => (session, before.conclude .wrongLength)
  | .ok frame =>
    let (session, answer) := session.dispatch device keys frame
    (session, (Exchange.ofAnswer answer frame).conclude answer.status)

end Session

end ClearSign
