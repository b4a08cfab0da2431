import Mathlib.Data.List.Basic
import Mathlib.Tactic.Cases
import Zapcc.Library.Total

/-!
# Relaying the server's output through the client

The server writes the compiler's output to a socket, followed by one byte with the exit code,
and the compiler's diagnostics to a second socket. `readServerOutput` waits for either socket,
copies what it receives and takes the last byte of a chunk for the exit code when it is one of
the three codes. `Step` is one round of that loop, with the cut into chunks and the order in
which sockets become ready left to the environment.
-/

namespace Zapcc.Client

open Execution List Function

/-- The two sockets that the client reads, in the order in which it looks at them. -/
inductive Stream where
  | output
  | error
  deriving DecidableEq

/-- The bytes that one successful `recv` returns: at least one, and no more than the buffer
holds. -/
structure Chunk where
  bytes : List UInt8
  nonempty : bytes ≠ []
  fits : bytes.length ≤ 1024

/-- The exit code reported when the server never sent one. -/
def NotFoundExitCode : Int := -9999

/-- The exit code that the last byte of a chunk stands for, if it can be one. -/
def findExitCode (buffer : Chunk) : Option Int :=
  let maybeExitCode := buffer.bytes.getLast buffer.nonempty
  if maybeExitCode = 0 ∨ maybeExitCode = 1 ∨ maybeExitCode = 2 then
    some maybeExitCode.toNat
  else none

/-- The state of the read loop. `pending` holds the chunks that the following calls of `recv`
return, before they report that the server closed the socket. -/
structure Reader where
  pending : Stream → List Chunk
  fdOpen : Stream → Bool
  written : Stream → List UInt8
  exitCode : Int

/-- The loop before its first round. -/
def Reader.start (chunks : Stream → List Chunk) : Reader where
  pending := chunks
  fdOpen _ := true
  written _ := []
  exitCode := NotFoundExitCode

/-- Receive from one socket. The flag says that an exit code was found. -/
def receive (s : Reader) (index : Stream) : Reader × Bool :=
  match s.pending index with
  | [] => ({ s with fdOpen := update s.fdOpen index false }, false)
  | buffer :: rest =>
    let read := { s with pending := update s.pending index rest }
    match findExitCode buffer with
    | some exitCode =>
      ({ read with
        exitCode := exitCode
        written := update s.written index
          (s.written index ++ buffer.bytes.dropLast) }, true)
    | none =>
      ({ read with
        written := update s.written index (s.written index ++ buffer.bytes) }, false)

/-- One round of the loop after `select` returned the set `ready`. Finding an exit code ends
the round, not the loop. -/
def round (ready : Stream → Bool) (s : Reader) : Reader :=
  let first := if ready .output then receive s .output else (s, false)
  if first.2 then first.1
  else if ready .error then (receive first.1 .error).1
  else first.1

/-- A round of the loop: `select` returns some of the open sockets, and at least one. -/
inductive Step : Reader → Reader → Prop where
  | select (s : Reader) (ready : Stream → Bool)
      (hopen : ∀ index, ready index = true → s.fdOpen index = true)
      (hready : ∃ index, ready index = true) : Step s (round ready s)

/-- What the client copies of a chunk. -/
def relayed (buffer : Chunk) : List UInt8 :=
  if (findExitCode buffer).isSome then buffer.bytes.dropLast else buffer.bytes

/-- The exit status of the client. A server that sent no code is taken to have crashed. -/
def returnCode (exitCode : Int) : Int :=
  if exitCode = NotFoundExitCode then 1 else exitCode

theorem receive_cons (s : Reader) (index : Stream) (buffer : Chunk) (rest : List Chunk)
    (h : s.pending index = buffer :: rest) :
    (receive s index).1 = { s with
      pending := update s.pending index rest
      written := update s.written index (s.written index ++ relayed buffer)
      exitCode := (findExitCode buffer).getD s.exitCode } := by
  unfold receive relayed
  rw [h]
  cases hcode : findExitCode buffer with
  | none | some exitCode => simp [hcode]

theorem receive_nil (s : Reader) (index : Stream) (h : s.pending index = []) :
    (receive s index).1 = { s with fdOpen := update s.fdOpen index false } := by
  unfold receive
  rw [h]

variable {s : Reader} {chunks : Stream → List Chunk} {index : Stream}

theorem round_cases {ready : Stream → Bool} (hready : ∃ index, ready index = true) :
    (∃ index, ready index = true ∧ round ready s = (receive s index).1) ∨
      (ready .output = true ∧ ready .error = true ∧
        round ready s = (receive (receive s .output).1 .error).1) := by
  unfold round
  cases houtput : ready .output with
  | false =>
    obtain ⟨index, hindex⟩ := hready
    cases index with
    | output => exact absurd (houtput.symm.trans hindex) (by simp)
    | error => exact Or.inl ⟨.error, hindex, by simp [hindex]⟩
  | true =>
    cases hfound : (receive s .output).2 with
    | true => exact Or.inl ⟨.output, houtput, by simp [hfound]⟩
    | false =>
      cases herror : ready .error with
      | false => exact Or.inl ⟨.output, houtput, by simp [hfound]⟩
      | true => exact Or.inr ⟨rfl, rfl, by simp [hfound]⟩

/-- The part of the streams that was received was relayed chunk by chunk, and a closed socket
has nothing pending. -/
structure Relays (chunks : Stream → List Chunk) (s : Reader) : Prop where
  written : ∀ index, ∃ received, chunks index = received ++ s.pending index ∧
    s.written index = received.flatMap relayed
  closed : ∀ index, s.fdOpen index = false → s.pending index = []

theorem relays_start (chunks : Stream → List Chunk) : Relays chunks (Reader.start chunks) where
  written _ := ⟨[], rfl, rfl⟩
  closed _ h := by cases h

theorem relays_receive (h : Relays chunks s)
    (index : Stream) : Relays chunks (receive s index).1 := by
  cases hpending : s.pending index with
  | nil =>
    rw [receive_nil s index hpending]
    refine ⟨h.written, fun other hclosed => ?_⟩
    by_cases heq : other = index
    · rw [heq]
      exact hpending
    · refine h.closed other ?_
      simpa [update_of_ne heq] using hclosed
  | cons buffer rest =>
    rw [receive_cons s index buffer rest hpending]
    refine ⟨fun other => ?_, fun other hclosed => ?_⟩
    · obtain ⟨received, hchunks, hwritten⟩ := h.written other
      by_cases heq : other = index
      · subst heq
        refine ⟨received ++ [buffer], ?_, ?_⟩
        · rw [hchunks, hpending]
          simp
        · simp [hwritten]
      · refine ⟨received, ?_, ?_⟩
        · simpa [update_of_ne heq] using hchunks
        · simpa [update_of_ne heq] using hwritten
    · have hempty := h.closed other hclosed
      by_cases heq : other = index
      · rw [heq, hpending] at hempty
        cases hempty
      · simpa [update_of_ne heq] using hempty

theorem step_of_receive (invariant : Reader → Prop)
    (hreceive : ∀ s index, invariant s → invariant (receive s index).1)
    {next : Reader} (h : invariant s) (hstep : Step s next) : invariant next := by
  cases hstep with
  | select ready hopen hready =>
    rcases round_cases hready with ⟨index, -, heq⟩ | ⟨-, -, heq⟩
    · rw [heq]
      exact hreceive s index h
    · rw [heq]
      exact hreceive _ .error (hreceive s .output h)

theorem relays_of_run {final : Reader}
    (hrun : Relation.ReflTransGen Step (Reader.start chunks) final) : Relays chunks final :=
  invariant_of_run (fun _ _ => step_of_receive (Relays chunks) fun _ index h =>
    relays_receive h index) hrun (relays_start chunks)

/-- The number of calls of `recv` that a socket still needs. -/
def Reader.waiting (s : Reader) (index : Stream) : Nat :=
  (s.pending index).length + if s.fdOpen index then 1 else 0

/-- The number of calls of `recv` that both sockets still need. -/
def Reader.remaining (s : Reader) : Nat := s.waiting .output + s.waiting .error

theorem waiting_receive_of_ne (s : Reader) {other : Stream} (hne : other ≠ index) :
    (receive s index).1.waiting other = s.waiting other := by
  cases hpending : s.pending index with
  | nil => simp [receive_nil s index hpending, Reader.waiting, update_of_ne hne]
  | cons buffer rest =>
    simp [receive_cons s index buffer rest hpending, Reader.waiting, update_of_ne hne]

theorem waiting_receive_lt (hopen : s.fdOpen index = true) :
    (receive s index).1.waiting index < s.waiting index := by
  cases hpending : s.pending index with
  | nil => simp [receive_nil s index hpending, Reader.waiting, hopen]
  | cons buffer rest =>
    simp [receive_cons s index buffer rest hpending, Reader.waiting, hopen, hpending]

theorem remaining_receive_lt (hopen : s.fdOpen index = true) :
    (receive s index).1.remaining < s.remaining := by
  have hlt := waiting_receive_lt hopen
  unfold Reader.remaining
  cases index with
  | output =>
    rw [waiting_receive_of_ne s (show Stream.error ≠ .output by decide)]
    omega
  | error =>
    rw [waiting_receive_of_ne s (show Stream.output ≠ .error by decide)]
    omega

theorem fdOpen_receive_of_ne (s : Reader) {other : Stream} (hne : other ≠ index) :
    (receive s index).1.fdOpen other = s.fdOpen other := by
  cases hpending : s.pending index with
  | nil => simp [receive_nil s index hpending, update_of_ne hne]
  | cons buffer rest => rw [receive_cons s index buffer rest hpending]

theorem remaining_step_lt {next : Reader} (hstep : Step s next) :
    next.remaining < s.remaining := by
  cases hstep with
  | select ready hopen hready =>
    rcases round_cases hready with ⟨index, hindex, heq⟩ | ⟨houtput, herror, heq⟩
    · rw [heq]
      exact remaining_receive_lt (hopen index hindex)
    · rw [heq]
      have hfirst := remaining_receive_lt (hopen .output houtput)
      have hstill : (receive s .output).1.fdOpen .error = true := by
        rw [fdOpen_receive_of_ne s (by decide)]
        exact hopen .error herror
      exact Nat.lt_trans (remaining_receive_lt hstill) hfirst

theorem closed_of_stopped (hstop : Stopped Step s) (index : Stream) :
    s.fdOpen index = false := by
  by_contra hopen
  rw [Bool.not_eq_false] at hopen
  refine hstop _ (.select s (fun other => decide (other = index)) ?_ ⟨index, by simp⟩)
  intro other hother
  rw [of_decide_eq_true hother]
  exact hopen

theorem Relays.written_of_stopped
    (h : Relays chunks s) (hstop : Stopped Step s) (index : Stream) :
    s.written index = (chunks index).flatMap relayed := by
  obtain ⟨received, hchunks, hwritten⟩ := h.written index
  rw [h.closed index (closed_of_stopped hstop index), append_nil] at hchunks
  rw [hchunks, hwritten]

/-- The results of `performCompile`. -/
inductive RetCode where
  | success
  | failure
  | compileWithClang

/-- The byte that `writeExitCode` puts behind the output. -/
def RetCode.byte : RetCode → UInt8
  | success => 0
  | failure => 1
  | compileWithClang => 2

/-- What the server wrote to the two sockets, and the chunks in which the client receives it.
The exit code follows the output. -/
structure Transmission where
  payload : Stream → List UInt8
  retCode : RetCode
  chunks : Stream → List Chunk
  output_eq : (chunks .output).flatMap Chunk.bytes = payload .output ++ [retCode.byte]
  error_eq : (chunks .error).flatMap Chunk.bytes = payload .error

namespace Transmission

/-- The client copied exactly the compiler's bytes and returns the server's code. -/
def Delivered (t : Transmission) (s : Reader) : Prop :=
  (∀ index, s.written index = t.payload index) ∧ returnCode s.exitCode = t.retCode.byte.toNat

/-- The last byte of the chunk has the value of an exit code. -/
def EndsInCode (buffer : Chunk) : Prop :=
  ∃ code : RetCode, buffer.bytes.getLast? = some code.byte

theorem endsInCode_iff (buffer : Chunk) :
    EndsInCode buffer ↔ (findExitCode buffer).isSome = true := by
  unfold EndsInCode
  rw [getLast?_eq_getLast_of_ne_nil buffer.nonempty]
  simp only [findExitCode]
  split_ifs with hcode
  · refine iff_of_true ?_ rfl
    rcases hcode with h | h | h
    · exact ⟨.success, congrArg some h⟩
    · exact ⟨.failure, congrArg some h⟩
    · exact ⟨.compileWithClang, congrArg some h⟩
  · refine iff_of_false ?_ Bool.false_ne_true
    rintro ⟨code, h⟩
    rw [Option.some.inj h] at hcode
    cases code <;> simp [RetCode.byte] at hcode

theorem findExitCode_of_getLast? {buffer : Chunk} {code : RetCode}
    (h : buffer.bytes.getLast? = some code.byte) :
    findExitCode buffer = some (code.byte.toNat : Int) := by
  rw [getLast?_eq_getLast_of_ne_nil buffer.nonempty] at h
  simp only [findExitCode, Option.some.inj h]
  cases code <;> rfl

theorem length_relayed (buffers : List Chunk) :
    (buffers.flatMap relayed).length + buffers.countP (fun buffer => (findExitCode buffer).isSome) =
      (buffers.flatMap Chunk.bytes).length := by
  induction buffers with
  | nil => rfl
  | cons buffer rest ih =>
    rw [flatMap_cons, flatMap_cons, length_append, length_append, countP_cons, ← ih]
    unfold relayed
    split_ifs with hfound
    · have hpositive := length_pos_iff.mpr buffer.nonempty
      rw [length_dropLast]
      omega
    · omega

theorem flatMap_relayed_of_silent {buffers : List Chunk}
    (h : ∀ buffer ∈ buffers, ¬ EndsInCode buffer) :
    buffers.flatMap relayed = buffers.flatMap Chunk.bytes := by
  induction buffers with
  | nil => rfl
  | cons buffer rest ih =>
    have hsilent := h buffer (mem_cons_self ..)
    rw [endsInCode_iff] at hsilent
    rw [flatMap_cons, flatMap_cons, ih fun other hother => h other (mem_cons_of_mem _ hother)]
    unfold relayed
    rw [if_neg hsilent]

variable (t : Transmission)

theorem output_ne_nil : t.chunks .output ≠ [] := by
  intro h
  have heq := t.output_eq
  rw [h] at heq
  simp at heq

/-- The chunk that carries the exit code. -/
def lastChunk : Chunk := (t.chunks .output).getLast t.output_ne_nil

/-- The chunks that carry no exit code: all but the last one of the output, and all of the
error stream. -/
def payloadChunks : List Chunk := (t.chunks .output).dropLast ++ t.chunks .error

theorem chunks_output : t.chunks .output = (t.chunks .output).dropLast ++ [t.lastChunk] :=
  (dropLast_append_getLast t.output_ne_nil).symm

theorem getLast?_lastChunk : t.lastChunk.bytes.getLast? = some t.retCode.byte := by
  have heq := congrArg List.getLast? t.output_eq
  rw [t.chunks_output, flatMap_append] at heq
  have hne : [t.lastChunk].flatMap Chunk.bytes ≠ [] := by
    simpa using t.lastChunk.nonempty
  rw [getLast?_append_of_ne_nil _ hne] at heq
  simpa using heq

theorem findExitCode_lastChunk :
    findExitCode t.lastChunk = some (t.retCode.byte.toNat : Int) :=
  findExitCode_of_getLast? t.getLast?_lastChunk

theorem payload_output :
    t.payload .output = (t.chunks .output).dropLast.flatMap Chunk.bytes ++ relayed t.lastChunk := by
  have hlast : t.lastChunk.bytes = relayed t.lastChunk ++ [t.retCode.byte] := by
    have hrelayed : relayed t.lastChunk = t.lastChunk.bytes.dropLast := by
      simp [relayed, t.findExitCode_lastChunk]
    rw [hrelayed]
    exact (dropLast_append_getLast? _ t.getLast?_lastChunk).symm
  have heq := t.output_eq
  rw [t.chunks_output, flatMap_append, flatMap_singleton, hlast, ← append_assoc] at heq
  exact (append_cancel_right heq).symm

/-- While no payload chunk ends in a code, only the last output chunk sets the exit code. -/
def CodeKnown (s : Reader) : Prop :=
  (∃ received, t.chunks .output = received ++ s.pending .output) ∧
    (∃ received, t.chunks .error = received ++ s.pending .error) ∧
    (s.pending .output = [] → s.exitCode = t.retCode.byte.toNat)

theorem codeKnown_receive (hsilent : ∀ buffer ∈ t.payloadChunks, ¬ EndsInCode buffer)
    (s : Reader) (index : Stream) (h : t.CodeKnown s) : t.CodeKnown (receive s index).1 := by
  obtain ⟨⟨output, houtput⟩, ⟨error, herror⟩, hcode⟩ := h
  cases hpending : s.pending index with
  | nil =>
    rw [receive_nil s index hpending]
    exact ⟨⟨output, houtput⟩, ⟨error, herror⟩, hcode⟩
  | cons buffer rest =>
    rw [receive_cons s index buffer rest hpending]
    cases index with
    | error =>
      rw [hpending] at herror
      have hmem : buffer ∈ t.payloadChunks := by
        simp [payloadChunks, herror]
      have hnone : findExitCode buffer = none := by
        simpa [endsInCode_iff] using hsilent buffer hmem
      refine ⟨⟨output, by simpa using houtput⟩, ⟨error ++ [buffer], by simpa using herror⟩, ?_⟩
      simpa [hnone] using hcode
    | output =>
      rw [hpending] at houtput
      refine ⟨⟨output ++ [buffer], by simpa using houtput⟩, ⟨error, by simpa using herror⟩, ?_⟩
      intro hrest
      have hnil : rest = [] := by simpa using hrest
      have hlast : t.lastChunk = buffer := by
        simp [lastChunk, houtput, hnil]
      simp [← hlast, t.findExitCode_lastChunk]

/-- The client delivers what the server sent, for every order in which the sockets become
ready, if and only if no payload chunk ends in a byte with the value of an exit code. -/
theorem delivers_iff :
    Total Step t.Delivered (Reader.start t.chunks) ↔
      ∀ buffer ∈ t.payloadChunks, ¬ EndsInCode buffer := by
  constructor
  · intro htotal
    obtain ⟨final, hrun, hstop, hdelivered⟩ := htotal.exists_stop
    have hwritten := fun index => ((relays_of_run hrun).written_of_stopped hstop index).symm.trans
      (hdelivered.1 index)
    have hsilent : ∀ buffers : List Chunk, buffers.flatMap relayed = buffers.flatMap Chunk.bytes →
          ∀ buffer ∈ buffers, ¬ EndsInCode buffer := by
      intro buffers heq buffer hbuffer hends
      have hlength := length_relayed buffers
      rw [heq] at hlength
      have hnone : ∀ other ∈ buffers, ¬ (findExitCode other).isSome = true :=
        countP_eq_zero.mp (by omega)
      exact hnone buffer hbuffer ((endsInCode_iff buffer).mp hends)
    intro buffer hbuffer
    rcases mem_append.mp hbuffer with hbuffer | hbuffer
    · refine hsilent _ ?_ buffer hbuffer
      have heq := hwritten .output
      rw [t.payload_output, t.chunks_output, flatMap_append, flatMap_singleton,
        dropLast_concat] at heq
      exact append_cancel_right heq
    · exact hsilent _ ((hwritten .error).trans t.error_eq.symm) buffer hbuffer
  · intro hsilent
    refine total_of_measure (fun s => Relays t.chunks s ∧ t.CodeKnown s) Reader.remaining
      ?_ (fun _ _ _ hstep => remaining_step_lt hstep) ?_ ⟨relays_start t.chunks, ?_⟩
    · intro s next h hstep
      exact step_of_receive (fun s => Relays t.chunks s ∧ t.CodeKnown s)
        (fun s index h => ⟨relays_receive h.1 index, t.codeKnown_receive hsilent s index h.2⟩)
        h hstep
    · intro s h hstop
      have houtput : ∀ buffer ∈ (t.chunks .output).dropLast, ¬ EndsInCode buffer :=
        fun buffer hbuffer => hsilent buffer (mem_append_left _ hbuffer)
      have herror : ∀ buffer ∈ t.chunks .error, ¬ EndsInCode buffer :=
        fun buffer hbuffer => hsilent buffer (mem_append_right _ hbuffer)
      refine ⟨fun index => ?_, ?_⟩
      · rw [h.1.written_of_stopped hstop index]
        cases index with
        | output =>
          rw [t.payload_output, ← flatMap_relayed_of_silent houtput]
          conv => lhs; rw [t.chunks_output]
          rw [flatMap_append, flatMap_singleton]
        | error =>
          rw [flatMap_relayed_of_silent herror, t.error_eq]
      · rw [h.2.2.2 (h.1.closed .output (closed_of_stopped hstop .output))]
        cases t.retCode <;> rfl
    · exact ⟨⟨[], rfl⟩, ⟨[], rfl⟩, fun hnil => absurd hnil t.output_ne_nil⟩

/-- Three bytes of an object file and the code of a successful compilation, each in a chunk
of its own. -/
def objectCode : Transmission where
  payload
    | .output => [0x7f, 0x45, 0x00]
    | .error => []
  retCode := .success
  chunks
    | .output => [⟨[0x7f, 0x45, 0x00], by decide, by decide⟩, ⟨[0x00], by decide, by decide⟩]
    | .error => []
  output_eq := rfl
  error_eq := rfl

/-- The client swallows the last byte of the object file. -/
theorem objectCode_not_delivered :
    ¬ Total Step objectCode.Delivered (Reader.start objectCode.chunks) := by
  intro htotal
  obtain ⟨final, hrun, hstop, hdelivered⟩ := htotal.exists_stop
  have hwritten := ((relays_of_run hrun).written_of_stopped hstop .output).symm.trans
    (hdelivered.1 .output)
  revert hwritten
  decide

end Transmission

end Zapcc.Client
