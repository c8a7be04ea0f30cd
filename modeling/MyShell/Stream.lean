import MyShell.Text

/-! # What a socket carries: bytes in order, sent and received in any pieces -/

namespace MyShell

/-- What `recv` returns when it neither fails nor finds the connection closed. -/
structure Chunk where
  bytes : CString
  nonempty : bytes ≠ []
  fits : bytes.length ≤ BUFFER_SIZE - 1

def arrived (chunks : List Chunk) : CString := (chunks.map (·.bytes)).flatten

@[simp] theorem arrived_nil : arrived [] = [] := rfl

@[simp] theorem arrived_cons (chunk : Chunk) (chunks : List Chunk) :
    arrived (chunk :: chunks) = chunk.bytes ++ arrived chunks := by
  simp [arrived]

/-- How far a call of `send_all` has come. -/
inductive SendAll where
  | done | failed | sending
  deriving DecidableEq, Repr

/-- `send_all`, with the answers of `send`: the number of bytes accepted, `none` on an error. The
bytes that went out, and the end of the call. -/
def sendAll : CString → List (Option Nat) → CString × SendAll
  | [], _ => ([], .done)
  | _ :: _, [] => ([], .sending)
  | _ :: _, none :: _ => ([], .failed)
  | buffer@(_ :: _), some accepted :: answers =>
    let (out, result) := sendAll (buffer.drop accepted) answers
    (buffer.take accepted ++ out, result)

theorem sendAll_done {buffer : CString} {answers : List (Option Nat)}
    (done : (sendAll buffer answers).2 = .done) : (sendAll buffer answers).1 = buffer := by
  induction answers generalizing buffer with
  | nil => cases buffer <;> simp [sendAll] at done ⊢
  | cons answer answers ih =>
    cases buffer with
    | nil => rfl
    | cons c buffer =>
      cases answer with
      | none => simp [sendAll] at done
      | some accepted =>
        show (c :: buffer).take accepted ++ (sendAll ((c :: buffer).drop accepted) answers).1 = _
        rw [ih done, List.take_append_drop]

end MyShell
