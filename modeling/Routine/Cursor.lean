import Routine.Diagnostic
import Routine.Feed
import Routine.KindSet

/-! # Cursors

A cursor hands out the tokens of a feed one by one and takes back the last of them. Tokens that are
invalid never come out of it: each is reported where it stands and passed over. The cursor keeps the
diagnostics and the events of its run in order.

`size` bounds the tokens a cursor has yet to hand out before the end of the input, and `held` counts
the token that could be handed back as well. Drawing a token never raises either above `size`
(`held_next_le`), and a token other than the end lowers `size` (`size_next_lt`). -/

namespace Routine

/-- The token handed out last, and whether it has been handed back. -/
inductive Slot where
  /-- No token has been handed out. -/
  | empty
  /-- The token was handed out. -/
  | taken (t : Token)
  /-- The token was handed back, to be handed out again. -/
  | pending (t : Token)
deriving DecidableEq, Repr

/-- A feed seen through one slot, with the diagnostics and the events of the run so far. -/
structure Cursor where
  feed : Feed
  slot : Slot := .empty
  diagnostics : Array Diagnostic := #[]
  log : Array Event := #[]
deriving Repr

namespace Cursor

/-- A cursor that has drawn nothing. -/
def ofFeed (f : Feed) : Cursor := { feed := f }

/-- The position of the token drawn last from the feed. -/
def position (s : Cursor) : Position := s.feed.position

/-- Adds an event to the log. -/
def note (s : Cursor) (e : Event) : Cursor := { s with log := s.log.push e }

/-- Keeps a diagnostic, and notes it first. -/
def report (s : Cursor) (d : Diagnostic) : Cursor :=
  let s := s.note (.reported d)
  { s with diagnostics := s.diagnostics.push d }

/-- Reports the token drawn last as unexpected. -/
def reject (s : Cursor) : Cursor := s.report ⟨.unexpected, s.position⟩

/-- Hands back the token handed out last. Before the first token there is none to hand back. -/
def pushBack (s : Cursor) : Cursor :=
  match s.slot with
  | .taken t => { s with slot := .pending t }
  | .empty | .pending _ => s

/-- The next token of the feed that is not invalid. -/
def fetch (s : Cursor) : Token × Cursor :=
  let t := s.feed.next.1
  let s' := { s with feed := s.feed.next.2 }
  if t.kind = .invalid then
    (s'.report ⟨.invalid, s'.position⟩).fetch
  else
    (t, { s' with slot := .taken t })
termination_by s.feed.size
decreasing_by
  apply Feed.size_next_lt
  rename_i h
  rw [h]
  decide

/-- The next token: the one handed back if there is one, and otherwise a new one. -/
def next (s : Cursor) : Token × Cursor :=
  match s.slot with
  | .pending t => (t, { s.note (.redelivered t.kind) with slot := .taken t })
  | .empty | .taken _ => s.fetch

/-- One for a token, none for the end of the input. -/
def weight (t : Token) : Nat := if t.kind = .eof then 0 else 1

/-- A bound on the tokens yet to be handed out, the end of the input not counted. -/
def size (s : Cursor) : Nat :=
  match s.slot with
  | .pending t => s.feed.size + weight t
  | .empty | .taken _ => s.feed.size

/-- The size the cursor has once the last token is handed back. -/
def held (s : Cursor) : Nat :=
  match s.slot with
  | .pending t | .taken t => s.feed.size + weight t
  | .empty => s.feed.size

theorem weight_of_ne_eof {t : Token} (h : t.kind ≠ .eof) : weight t = 1 := by
  simp [weight, h]

theorem size_le_held (s : Cursor) : s.size ≤ s.held := by
  cases h : s.slot <;> simp [size, held, h]

@[simp] theorem size_pushBack (s : Cursor) : s.pushBack.size = s.held := by
  cases h : s.slot <;> simp [pushBack, size, held, h]

@[simp] theorem held_pushBack (s : Cursor) : s.pushBack.held = s.held := by
  cases h : s.slot <;> simp [pushBack, held, h]

@[simp] theorem held_note (s : Cursor) (e : Event) : (s.note e).held = s.held := rfl

@[simp] theorem held_reject (s : Cursor) : s.reject.held = s.held := rfl

/-- A token that is fetched is the last one handed out. -/
theorem slot_fetch (s : Cursor) : s.fetch.2.slot = .taken s.fetch.1 := by
  fun_induction fetch s with
  | case1 s t s' h ih => exact ih
  | case2 s t s' h => rfl

/-- A token that is fetched is not invalid. -/
theorem fetch_kind_ne_invalid (s : Cursor) : s.fetch.1.kind ≠ .invalid := by
  fun_induction fetch s with
  | case1 s t s' h ih => exact ih
  | case2 s t s' h => exact h

theorem feed_size_fetch_add_weight_le (s : Cursor) :
    s.fetch.2.feed.size + weight s.fetch.1 ≤ s.feed.size := by
  fun_induction fetch s with
  | case1 s t s' h ih => exact Nat.le_trans ih s.feed.size_next_le
  | case2 s t s' h =>
    by_cases ht : t.kind = .eof
    · simpa [weight, ht] using s.feed.size_next_le
    · simpa [weight, ht] using Nat.succ_le_of_lt (Feed.size_next_lt ht)

theorem slot_next (s : Cursor) : s.next.2.slot = .taken s.next.1 := by
  unfold next
  split
  · rfl
  · exact s.slot_fetch
  · exact s.slot_fetch

theorem feed_size_next_add_weight_le (s : Cursor) :
    s.next.2.feed.size + weight s.next.1 ≤ s.size := by
  unfold next size
  split <;> rename_i h
  · exact Nat.le_refl _
  · exact s.feed_size_fetch_add_weight_le
  · exact s.feed_size_fetch_add_weight_le

/-- Drawing a token and handing it back does not raise the size. -/
theorem held_next_le (s : Cursor) : s.next.2.held ≤ s.size := by
  have h := s.feed_size_next_add_weight_le
  unfold held
  rw [slot_next]
  exact h

/-- Drawing a token other than the end lowers the size. -/
theorem size_next_lt {s : Cursor} (h : s.next.1.kind ≠ .eof) : s.next.2.size < s.size := by
  have hle := s.feed_size_next_add_weight_le
  rw [weight_of_ne_eof h] at hle
  unfold size at *
  rw [slot_next]
  exact hle

theorem slot_pushBack_of_taken {s : Cursor} {t : Token} (h : s.slot = .taken t) :
    s.pushBack.slot = .pending t := by
  simp only [pushBack, h]

theorem next_of_pending {s : Cursor} {t : Token} (h : s.slot = .pending t) :
    s.next = (t, { s.note (.redelivered t.kind) with slot := .taken t }) := by
  simp only [next, h]

/-- A token that is handed back is the next one. -/
@[simp] theorem next_pushBack_next (s : Cursor) : s.next.2.pushBack.next.1 = s.next.1 := by
  rw [next_of_pending (slot_pushBack_of_taken s.slot_next)]

theorem size_pushBack_next_le (s : Cursor) : s.next.2.pushBack.size ≤ s.size := by
  rw [size_pushBack]
  exact s.held_next_le

/-- The outcome of passing over tokens: their number, the token in front of which the run resumes,
and the cursor that has handed it out. -/
structure Skip where
  count : Nat
  resume : Token
  cursor : Cursor

/-- Passes over tokens from `t`, the token handed out last, up to the first one of `stop` or the end
of the input, having passed over `count` tokens before. -/
def skip (stop : KindSet) (count : Nat) (t : Token) (s : Cursor) : Skip :=
  if stop.contains t.kind || t.kind = .eof then
    ⟨count, t, s⟩
  else
    let o := (s.note (.skipped t.kind t.position)).fetch
    skip stop (count + 1) o.1 o.2
termination_by s.feed.size + weight t
decreasing_by
  rename_i h
  have ht : weight t = 1 := weight_of_ne_eof (by simp_all)
  have := (s.note (.skipped t.kind t.position)).feed_size_fetch_add_weight_le
  simp only [note] at this
  simp only [note, ht]
  omega

/-- Recovers from a fault: hands back the last token and passes over tokens until the next one is of
`stop` or the end of the input. -/
def synchronize (stop : KindSet) (s : Cursor) : Cursor :=
  let o := s.pushBack.next
  let skipped := skip stop 0 o.1 o.2
  skipped.cursor.pushBack.note (.synchronized skipped.count skipped.resume.kind)

theorem held_skip_le (stop : KindSet) (count : Nat) (t : Token) (s : Cursor)
    (h : s.slot = .taken t) : (skip stop count t s).cursor.held ≤ s.held := by
  fun_induction skip stop count t s with
  | case1 => exact Nat.le_refl _
  | case2 count t s hstop o ih =>
    have ht : weight t = 1 := weight_of_ne_eof (by simp_all)
    have hfetch := (s.note (.skipped t.kind t.position)).feed_size_fetch_add_weight_le
    have hslot := (s.note (.skipped t.kind t.position)).slot_fetch
    refine Nat.le_trans (ih hslot) ?_
    have ho : o.2.held = o.2.feed.size + weight o.1 := by
      unfold held
      rw [hslot]
    have hs : s.held = s.feed.size + weight t := by
      unfold held
      rw [h]
    have : o.2.feed.size + weight o.1 ≤ s.feed.size := hfetch
    omega

theorem held_synchronize_le (stop : KindSet) (s : Cursor) : (s.synchronize stop).held ≤ s.held := by
  simp only [synchronize, held_note, held_pushBack]
  refine Nat.le_trans (held_skip_le stop 0 _ _ s.pushBack.slot_next) ?_
  exact Nat.le_trans s.pushBack.held_next_le (Nat.le_of_eq s.size_pushBack)

end Cursor

end Routine
