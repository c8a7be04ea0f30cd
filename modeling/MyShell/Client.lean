import MyShell.Stream
import MyShell.Lib.Search
import Mathlib.Data.List.TakeWhile

/-! # The response that a client reads

`receive_response_until_end` of `client.c`: it collects what `recv` returns in a growing buffer
until `END_MARKER` shows up in it, and prints what stands before the marker. -/

namespace MyShell

def cString (bytes : List Char) : CString := bytes.takeWhile (· ≠ NUL)

def strstr (haystack : List Char) (needle : CString) : Option Nat :=
  Search.firstIndex needle (cString haystack)

def growCapacity (needed capacity : Nat) (positive : 0 < capacity) : Nat :=
  if needed > capacity then growCapacity needed (capacity * 2) (by omega) else capacity
termination_by needed - capacity

structure Response where
  text : List Char := []
  capacity : Nat := BUFFER_SIZE
  positive : 0 < capacity := by decide

inductive Recv where
  | failed | closed | data (chunk : Chunk)

/-- How far the call has come. `unread` are the answers of `recv` left for the next call. -/
inductive Reception where
  | printed (text : CString) (unread : List Recv)
  | failed
  | waiting (response : Response)

theorem growCapacity_ge (needed : Nat) {capacity : Nat} (positive : 0 < capacity) :
    needed ≤ growCapacity needed capacity positive ∧ capacity ≤ growCapacity needed capacity positive := by
  fun_induction growCapacity needed capacity positive with
  | case1 capacity positive small ih => omega
  | case2 capacity positive fits => omega

section Receive

-- whether `malloc` or `realloc` finds memory for the size
variable (alloc : Nat → Bool)

def Response.append (r : Response) (chunk : Chunk) : Option Response :=
  let needed := r.text.length + chunk.bytes.length + 1
  if needed > r.capacity then
    let capacity := growCapacity needed r.capacity r.positive
    if alloc capacity then
      some ⟨r.text ++ chunk.bytes, capacity, Nat.lt_of_lt_of_le r.positive (growCapacity_ge needed r.positive).2⟩
    else none
  else some { r with text := r.text ++ chunk.bytes }

def receiveLoop (r : Response) : List Recv → Reception
  | [] => .waiting r
  | .failed :: _ => .failed
  | .closed :: _ => .failed
  | .data chunk :: answers =>
    match r.append alloc chunk with
    | none => .failed
    | some r =>
      match strstr r.text END_MARKER with
      | some pos => .printed (cString (r.text.take pos)) answers
      | none => receiveLoop r answers

def receiveResponseUntilEnd (answers : List Recv) : Reception :=
  if alloc BUFFER_SIZE then receiveLoop alloc {} answers else .failed

end Receive

variable {alloc : Nat → Bool} {r r' : Response} {chunk : Chunk} {chunks : List Chunk}

/-! ### The buffer -/

/-- The bytes read and the NUL after them lie in the buffer. -/
def Response.Fits (r : Response) : Prop := r.text.length + 1 ≤ r.capacity

theorem append_text (appended : r.append alloc chunk = some r') :
    r'.text = r.text ++ chunk.bytes ∧ r'.Fits := by
  unfold Response.append at appended
  dsimp only at appended
  split at appended
  · split at appended
    · cases appended
      have grown := (growCapacity_ge (r.text.length + chunk.bytes.length + 1) r.positive).1
      exact ⟨rfl, by simpa [Response.Fits] using grown⟩
    · cases appended
  · rename_i large
    cases appended
    exact ⟨rfl, by simpa [Response.Fits] using Nat.not_lt.mp large⟩

theorem append_some (memory : ∀ size, alloc size = true) (r : Response) (chunk : Chunk) :
    ∃ r', r.append alloc chunk = some r' := by
  unfold Response.append
  dsimp only
  split <;> simp [memory]

theorem receiveLoop_waiting {answers : List Recv} (fits : r.Fits)
    (waits : receiveLoop alloc r answers = .waiting r') : r'.Fits := by
  induction answers generalizing r with
  | nil => cases waits; exact fits
  | cons answer answers ih =>
    cases answer with
    | failed | closed => simp [receiveLoop] at waits
    | data chunk =>
      unfold receiveLoop at waits
      split at waits
      · cases waits
      · rename_i grown appended
        split at waits
        · cases waits
        · exact ih (append_text appended).2 waits

/-! ### What is printed -/

theorem nul_not_mem_cString (bytes : List Char) : NUL ∉ cString bytes := by
  intro member
  simpa using List.mem_takeWhile_imp member

theorem cString_eq_self {bytes : List Char} (free : NUL ∉ bytes) : cString bytes = bytes := by
  unfold cString
  rw [List.takeWhile_eq_self_iff]
  intro c member
  have other : c ≠ NUL := fun same => free (same ▸ member)
  simpa using other

theorem strstr_some {haystack : List Char} {needle : CString} {pos : Nat} (visible : needle ≠ [])
    (found : strstr haystack needle = some pos) :
    NUL ∉ haystack.take pos ∧ ¬ needle <:+: haystack.take pos := by
  have start : cString haystack <+: haystack := List.takeWhile_prefix _
  have bound : pos ≤ (cString haystack).length := Search.firstIndex_le found
  obtain ⟨rest, split⟩ := start
  have same : haystack.take pos = (cString haystack).take pos :=
    (congrArg (List.take pos) split).symm.trans (List.take_append_of_le_length bound)
  rw [same]
  refine ⟨fun member => nul_not_mem_cString haystack (List.mem_of_mem_take member), ?_⟩
  rintro ⟨before, after, inside⟩
  have first := (Search.firstIndex_some found).2 before (after ++ (cString haystack).drop pos) (by
    rw [← List.append_assoc, inside, List.take_append_drop])
  have length := congrArg List.length inside
  have positive := List.length_pos_of_ne_nil visible
  simp only [List.length_append, List.length_take] at length
  omega

theorem receiveLoop_printed {out : CString} {unread : List Recv}
    (printed : receiveLoop alloc r (chunks.map .data) = .printed out unread) :
    ∃ taken rest pos, chunks = taken ++ rest ∧ unread = rest.map .data ∧
      strstr (r.text ++ arrived taken) END_MARKER = some pos ∧
      out = cString ((r.text ++ arrived taken).take pos) := by
  induction chunks generalizing r with
  | nil => simp [receiveLoop] at printed
  | cons chunk chunks ih =>
    simp only [List.map_cons] at printed
    unfold receiveLoop at printed
    split at printed
    · cases printed
    · rename_i grown appended
      have text := (append_text appended).1
      split at printed
      · rename_i pos found
        cases printed
        exact ⟨[chunk], chunks, pos, rfl, rfl, by simpa [← text] using found, by simp [text]⟩
      · obtain ⟨taken, rest, pos, rfl, rfl, found, rfl⟩ := ih printed
        exact ⟨chunk :: taken, rest, pos, rfl, rfl, by simpa [text] using found, by simp [text]⟩

theorem marker_unbordered : Search.Unbordered END_MARKER := by decide

theorem receiveLoop_clean {output : CString} (memory : ∀ size, alloc size = true) (noNul : NUL ∉ output)
    (free : ¬ END_MARKER <:+: output) (unseen : ¬ END_MARKER <:+: r.text)
    (stream : r.text ++ arrived chunks = output ++ END_MARKER) :
    receiveLoop alloc r (chunks.map .data) = .printed output [] := by
  induction chunks generalizing r with
  | nil =>
    refine absurd ?_ unseen
    rw [show r.text = output ++ END_MARKER by simpa using stream]
    exact (List.suffix_append ..).isInfix
  | cons chunk chunks ih =>
    obtain ⟨grown, appended⟩ := append_some memory r chunk
    have text := (append_text appended).1
    have stream : grown.text ++ arrived chunks = output ++ END_MARKER := by simpa [text] using stream
    have whole : NUL ∉ grown.text := by
      intro member
      have among : NUL ∈ output ++ END_MARKER := stream ▸ List.mem_append_left _ member
      rcases List.mem_append.mp among with output | marker
      · exact noNul output
      · exact absurd marker (by decide)
    simp only [List.map_cons, receiveLoop, appended, strstr, cString_eq_self whole]
    cases chunks with
    | nil =>
      have last : grown.text = output ++ END_MARKER := by simpa using stream
      rw [last, Search.firstIndex_append marker_unbordered free]
      simp [cString_eq_self noNul]
    | cons next chunks =>
      have unseen : ¬ END_MARKER <:+: grown.text := by
        rintro ⟨before, after, inside⟩
        have split : output ++ END_MARKER = before ++ END_MARKER ++ (after ++ arrived (next :: chunks)) := by
          rw [← stream, ← inside, List.append_assoc, List.append_assoc]
        have ended := (marker_unbordered.append_eq free split).2
        simp [next.nonempty] at ended
      rw [Search.firstIndex_eq_none.mpr unseen]
      exact ih unseen stream

/-- The client prints exactly the output and has read the whole response, however it was sent and
cut, when the output has neither a NUL nor the marker in it, and only then. The buffer always has
room for the bytes read and a NUL. -/
theorem response_read_iff (memory : ∀ size, alloc size = true) {output : CString}
    {sends markerSends : List (Option Nat)} (sent : (sendAll output sends).2 = .done)
    (markerSent : (sendAll END_MARKER markerSends).2 = .done)
    (cut : arrived chunks = (sendAll output sends).1 ++ (sendAll END_MARKER markerSends).1) :
    (receiveResponseUntilEnd alloc (chunks.map .data) = .printed output [] ↔
      NUL ∉ output ∧ ¬ END_MARKER <:+: output) ∧
    ∀ answers r, receiveResponseUntilEnd alloc answers = .waiting r →
      r.Fits ∧ ∀ chunk r', r.append alloc chunk = some r' → r'.Fits := by
  rw [sendAll_done sent, sendAll_done markerSent] at cut
  simp only [receiveResponseUntilEnd, memory, if_true]
  refine ⟨⟨fun printed => ?_, fun ⟨noNul, free⟩ => ?_⟩, fun answers r waits => ?_⟩
  · obtain ⟨taken, rest, pos, rfl, unread, found, same⟩ := receiveLoop_printed printed
    obtain rfl : rest = [] := by simpa using unread.symm
    obtain ⟨noNul, free⟩ := strstr_some (by decide) found
    rw [cString_eq_self noNul] at same
    rw [same]
    exact ⟨noNul, free⟩
  · apply receiveLoop_clean memory noNul free (by decide)
    simpa using cut
  · have start : Response.Fits {} := by simp [Response.Fits, BUFFER_SIZE]
    exact ⟨receiveLoop_waiting start waits, fun chunk r' appended => (append_text appended).2⟩

def helloChunks : List Chunk :=
  [⟨"hel".toList, by decide, by decide⟩, ⟨"lo<<E".toList, by decide, by decide⟩,
    ⟨"ND>>".toList, by decide, by decide⟩]

theorem response_read_hello :
    receiveResponseUntilEnd (fun _ => true) (helloChunks.map .data) = .printed "hello".toList [] :=
  ((response_read_iff (fun _ => rfl) (show (sendAll "hello".toList [some 2, some 3]).2 = .done by decide)
    (show (sendAll END_MARKER [some 7]).2 = .done by decide) (by decide)).1).mpr (by decide)

end MyShell
