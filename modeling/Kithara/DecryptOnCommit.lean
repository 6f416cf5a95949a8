import Kithara.BlockChaining
import Kithara.StorageMemory

/-! A writer that transforms its resource when it is committed: the raw bytes are read back chunk
by chunk, handed to a sink, and its output is written over the bytes already read. `Backing` is
what the inner writer and the buffer pools answer. -/
namespace DecryptOnCommit

open BlockChaining StorageMemory

def aesBlockSize : ℕ := 16

structure DecryptContext where
  key : Block aesBlockSize
  iv : Block aesBlockSize

/-- What the cipher library supplies: the decryption of one block under a key, and the text of a
padding error. -/
structure Aes128 where
  decryptBlock : Block aesBlockSize → Block aesBlockSize → Block aesBlockSize
  padError : String

def aes128CbcProcessChunk (aes : Aes128) (ctx : DecryptContext) (input : List UInt8)
    (isLast : Bool) : Except String (List UInt8) × DecryptContext :=
  if input.isEmpty then (.ok [], ctx)
  else if input.length % aesBlockSize ≠ 0 then
    (.error s!"input length {input.length} is not aligned to AES block size {aesBlockSize}", ctx)
  else
    let nextIv := lastBlock aesBlockSize input
    let plain := cbcDecrypt (aes.decryptBlock ctx.key) ctx.iv input
    if isLast then
      match unpad aesBlockSize plain with
      | none => (.error s!"PKCS7 unpad failed: {aes.padError}", ctx)
      | some out => (.ok out, ctx)
    else (.ok plain, { ctx with iv := nextIv })

structure ResourceProcessor (σ : Type*) where
  start : σ
  process : σ → List UInt8 → Bool → Except String (List UInt8) × σ

def decryptProcessor (aes : Aes128) (ctx : DecryptContext) : ResourceProcessor DecryptContext where
  start := ctx
  process := aes128CbcProcessChunk aes

/-- The answers of one commit. A read is asked by its number, the bytes it requests and the bytes
stored from its offset on; it may be short, but not empty while bytes remain. -/
structure Backing where
  inputBuffer : Except String Unit
  outputBuffer : Except String Unit
  readInflight : (call requested stored : ℕ) → StorageResult ℕ
  read_le : readInflight call requested stored = .ok n → n ≤ min requested stored
  read_pos : readInflight call requested stored = .ok 0 → min requested stored = 0
  write : (call : ℕ) → StorageResult Unit
  commit : StorageResult Unit

def overwrite (working : List UInt8) (offset : ℕ) (data : List UInt8) : List UInt8 :=
  let grown := ensureLen working (offset + data.length)
  grown.take offset ++ data ++ grown.drop (offset + data.length)

structure SinkCall where
  readOffset : ℕ
  writeOffset : ℕ
  read : ℕ
  written : ℕ
  isLast : Bool

def writtenOf : Except String (List UInt8) → ℕ
  | .ok output => output.length
  | .error _ => 0

def processLoop {σ : Type*} (backing : Backing) (processor : ResourceProcessor σ)
    (finalLen chunkSize call : ℕ) (sink : σ) (working : List UInt8) (readOffset writeOffset : ℕ) :
    List SinkCall × StorageResult (List UInt8 × ℕ) :=
  if readOffset < finalLen then
    let toRead := min (finalLen - readOffset) chunkSize
    let isLast := decide (finalLen ≤ readOffset + toRead)
    match backing.readInflight call toRead (working.length - readOffset) with
    | .error error => ([], .error error)
    | .ok read =>
      if read = 0 then ([], .ok (working, writeOffset))
      else
        let (output, sink) :=
          processor.process sink ((working.drop readOffset).take read) isLast
        let made : SinkCall := { readOffset, writeOffset, read, written := writtenOf output, isLast }
        match output with
        | .error message => ([made], .error (.failed message))
        | .ok output =>
          match backing.write call with
          | .error error => ([made], .error error)
          | .ok () =>
            let (calls, result) := processLoop backing processor finalLen chunkSize (call + 1) sink
              (overwrite working writeOffset output) (readOffset + read)
              (writeOffset + output.length)
            (made :: calls, result)
  else ([], .ok (working, writeOffset))
termination_by finalLen - readOffset
decreasing_by omega

def runProcess {σ : Type*} (backing : Backing) (processor : ResourceProcessor σ)
    (working : List UInt8) (finalLen chunkSize : ℕ) :
    List SinkCall × StorageResult (List UInt8 × ℕ) :=
  match backing.inputBuffer with
  | .error error =>
    ([], .error (.failed s!"processing input buffer growth failed: {error}"))
  | .ok () =>
    match backing.outputBuffer with
    | .error error =>
      ([], .error (.failed s!"processing output buffer growth failed: {error}"))
    | .ok () => processLoop backing processor finalLen chunkSize 0 processor.start working 0 0

inductive Readiness where
  | pending
  | ready
  | failed
  deriving DecidableEq

def Readiness.markReady : Readiness → Readiness
  | .failed => .failed
  | _ => .ready

/-- The inner resource: the bytes being written, and the content readers of a committed resource
see. -/
structure RawResource where
  working : List UInt8
  committed : Option (List UInt8)

structure ProcessedWriter (σ : Type*) where
  inner : RawResource
  processor : Option (ResourceProcessor σ)
  chunkSize : ℕ
  gate : Readiness

def ProcessedWriter.new {σ : Type*} (inner : RawResource) (processor : Option (ResourceProcessor σ))
    (chunkSize : ℕ) : ProcessedWriter σ where
  inner := inner
  processor := processor
  chunkSize := chunkSize
  gate := if processor.isNone then .ready else .pending

structure Outcome where
  calls : List SinkCall
  result : StorageResult Unit
  committed : Option (List UInt8)
  gate : Readiness

/-- The inner commit over what the processing answered; a guard dropped on the way out fails the
gate. -/
def ProcessedWriter.finish {σ : Type*} (w : ProcessedWriter σ) (backing : Backing)
    (needsProcessing : Bool) :
    List SinkCall × StorageResult (List UInt8 × Option ℕ) → Outcome
  | (calls, .error error) =>
    { calls, result := .error error, committed := w.inner.committed, gate := .failed }
  | (calls, .ok (working, actualLen)) =>
    match backing.commit with
    | .error error =>
      { calls, result := .error error, committed := w.inner.committed, gate := .failed }
    | .ok () =>
      { calls, result := .ok ()
        committed := some (working.take (actualLen.getD working.length))
        gate := if needsProcessing then w.gate.markReady else w.gate }

def ProcessedWriter.commit {σ : Type*} (w : ProcessedWriter σ) (backing : Backing)
    (finalLen : Option ℕ) : Outcome :=
  let needsProcessing := w.processor.isSome && w.gate ≠ .ready
  let plain := ([], .ok (w.inner.working, finalLen))
  match needsProcessing, finalLen, w.processor with
  | true, some len, some processor =>
    if 0 < len then
      let (calls, result) := runProcess backing processor w.inner.working len w.chunkSize
      w.finish backing needsProcessing (calls, result.map fun done => (done.1, some done.2))
    else w.finish backing needsProcessing plain
  | _, _, _ => w.finish backing needsProcessing plain

end DecryptOnCommit
