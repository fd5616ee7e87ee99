import RubyPretty.Proofs.Layout.FlatGroups
/-!
# The layout machine comes to its end

The weight of a state bounds the steps that are left, and settling a document does not make it
heavier, so a document is written in at most as many steps as it weighs. A look-ahead is a loop of
its own (`LookAhead`): it takes the chunks before it apart, and when it has none left it fetches the
next one of the stack. Its rounds are bounded by the weight of what it has to look at, and the
answer that it comes to is the one of `fits` (`answer?_eq`).
-/

namespace RubyPretty

namespace Doc

theorem weightAll_map_settle {ds : List Doc} (h : ∀ d ∈ ds, (settle d).1.weight = d.weight) :
    weightAll (ds.map fun d => (settle d).1) = weightAll ds := by
  induction ds with
  | nil => rfl
  | cons d ds ih =>
      obtain ⟨hd, hds⟩ := List.forall_mem_cons.mp h
      rw [List.map_cons, weightAll, weightAll, hd, ih hds]

theorem weight_settle (d : Doc) : (settle d).1.weight = d.weight := by
  induction d using Doc.induction with
  | empty | text | newline | breakParent => rfl
  | seq ds ih => rw [settle_seq, weight, weight, weightAll_map_settle ih]
  | fill ds ih => rw [settle_fill, weight, weight, weightAll_map_settle ih, List.length_map]
  | indent d ih | align _ d ih | group d _ _ ih | root d ih => exact congrArg (1 + ·) ih
  | suffix d ih => exact congrArg (2 + ·) ih
  | ifBreak b f id ihb ihf =>
      show 1 + (settle b).1.weight + (settle f).1.weight = 1 + b.weight + f.weight
      rw [ihb, ihf]

end Doc

namespace Layout

/-! ## The loop of a look-ahead -/

/-- A look-ahead on its way: the chunks that it is taking apart, the stack that it has not touched
yet, and the room that is left. -/
structure LookAhead where
  chunks : List Chunk
  stack : List Chunk
  room : Nat

namespace LookAhead

def spend (look : LookAhead) (width : Nat) : Bool ⊕ LookAhead :=
  if width ≤ look.room then .inr { look with room := look.room - width } else .inl false

def push (look : LookAhead) (chunks : List Chunk) : LookAhead :=
  { look with chunks := chunks ++ look.chunks }

def take (modes : Modes) (look : LookAhead) (chunk : Chunk) : Bool ⊕ LookAhead :=
  match chunk.doc with
  | .empty | .suffix _ | .breakParent => .inr look
  | .text s => look.spend s.length
  | .newline b => if chunk.flat && !b.hard then look.spend b.flat.length else .inl true
  | .seq ds | .fill ds => .inr (look.push (ds.map chunk.withDoc))
  | .indent d | .align _ d | .root d => .inr (look.push [chunk.withDoc d])
  | .group d _ broken =>
      .inr (look.push [{ chunk with doc := d, flat := chunk.flat && !broken }])
  | .ifBreak b f id =>
      .inr (look.push [chunk.withDoc (if modes.flat chunk.flat id then f else b)])

/-- One round of the loop: the answer, or what is left to look at. -/
def round (modes : Modes) (look : LookAhead) : Bool ⊕ LookAhead :=
  match look.chunks, look.stack with
  | chunk :: chunks, _ => { look with chunks := chunks }.take modes chunk
  | [], chunk :: stack => .inr { look with chunks := [chunk], stack := stack }
  | [], [] => .inl true

/-- The answer after so many rounds, if the loop has come to one by then. -/
def answer? (modes : Modes) : Nat → LookAhead → Option Bool
  | 0, _ => none
  | rounds + 1, look => (look.round modes).elim some (answer? modes rounds)

/-- A bound on the rounds before the last one. A chunk on the stack takes one more, in which it is
fetched. -/
def weight (look : LookAhead) : Nat :=
  stackWeight look.chunks + stackWeight look.stack + look.stack.length

def outcome (modes : Modes) (look : LookAhead) : Scan :=
  scanChunks modes look.room (look.chunks ++ look.stack)

/-- An answer is the one of the scan, and a look-ahead that goes on has less before it than `weight`
and comes to the same scan. -/
def Follows (modes : Modes) (scan : Scan) (weight : Nat) : Bool ⊕ LookAhead → Prop
  | .inl answer => answer = (scan != .overflow)
  | .inr next => next.weight < weight ∧ next.outcome modes = scan

theorem follows_spend (modes : Modes) (look : LookAhead) (width : Nat) :
    Follows modes
      ((Scan.spend look.room width).andThen fun room =>
        scanChunks modes room (look.chunks ++ look.stack))
      (1 + look.weight) (look.spend width) := by
  unfold spend Scan.spend
  split
  · exact ⟨Nat.lt_add_of_pos_left Nat.one_pos, rfl⟩
  · rfl

theorem follows_push (modes : Modes) (look : LookAhead) {chunks : List Chunk} {weight : Nat}
    (h : stackWeight chunks < weight) :
    Follows modes (scanChunks modes look.room (chunks ++ (look.chunks ++ look.stack)))
      (weight + look.weight) (.inr (look.push chunks)) := by
  constructor
  · simp only [LookAhead.weight, push, stackWeight_append]
    omega
  · rw [outcome, push, List.append_assoc]

theorem follows_take (modes : Modes) (look : LookAhead) (chunk : Chunk) :
    Follows modes (scanChunks modes look.room (chunk :: (look.chunks ++ look.stack)))
      (chunk.doc.weight + look.weight) (look.take modes chunk) := by
  obtain ⟨doc, indent, root, flat⟩ := chunk
  have hone (c : Chunk) : stackWeight [c] < 1 + c.doc.weight := by
    rw [stackWeight_cons, stackWeight_nil]
    omega
  cases doc with
  | empty | breakParent =>
      exact ⟨Nat.lt_add_of_pos_left Nat.one_pos, by rw [scanChunks_cons]; rfl⟩
  | suffix d =>
      exact ⟨Nat.lt_add_of_pos_left (by rw [Doc.weight]; omega), by rw [scanChunks_cons]; rfl⟩
  | text s =>
      rw [scanChunks_cons]
      exact follows_spend modes look s.length
  | newline b =>
      rw [scanChunks_cons]
      simp only [take, scan]
      split
      · exact follows_spend modes look b.flat.length
      · rfl
  | seq ds =>
      rw [scanChunks_cons, scan, ← scanChunks_withDoc modes _ ⟨.seq ds, indent, root, flat⟩]
      refine follows_push modes look ?_
      rw [stackWeight_withDoc, Doc.weight]
      omega
  | fill ds =>
      rw [scanChunks_cons, scan, ← scanChunks_withDoc modes _ ⟨.fill ds, indent, root, flat⟩]
      refine follows_push modes look ?_
      rw [stackWeight_withDoc, Doc.weight]
      omega
  | indent d | align _ d | root d | group d _ _ => exact follows_push modes look (hone ⟨d, _, _, _⟩)
  | ifBreak b f id =>
      have hside : (if modes.flat flat id then f else b).weight < (Doc.ifBreak b f id).weight := by
        rw [Doc.weight]
        split <;> omega
      have hscan : scanChunks modes look.room
          (⟨.ifBreak b f id, indent, root, flat⟩ :: (look.chunks ++ look.stack)) =
            scanChunks modes look.room
              ([⟨if modes.flat flat id then f else b, indent, root, flat⟩] ++
                (look.chunks ++ look.stack)) := by
        rw [List.singleton_append, scanChunks_cons, scanChunks_cons, scan]
        split <;> rfl
      rw [hscan]
      exact follows_push modes look hside

theorem follows_round (modes : Modes) (look : LookAhead) :
    Follows modes (look.outcome modes) look.weight (look.round modes) := by
  obtain ⟨chunks, stack, room⟩ := look
  cases chunks with
  | cons chunk chunks =>
      have hweight : weight ⟨chunk :: chunks, stack, room⟩ =
          chunk.doc.weight + weight ⟨chunks, stack, room⟩ := by
        simp only [weight, stackWeight_cons]
        omega
      rw [hweight]
      exact follows_take modes ⟨chunks, stack, room⟩ chunk
  | nil =>
      cases stack with
      | nil => rfl
      | cons chunk stack =>
          refine ⟨?_, rfl⟩
          simp only [weight, stackWeight_cons, stackWeight_nil, List.length_cons]
          omega

/-- The loop ends, and its answer is the one of the scan. -/
theorem answer?_eq (modes : Modes) {rounds : Nat} (look : LookAhead) (h : look.weight < rounds) :
    look.answer? modes rounds = some (look.outcome modes != .overflow) := by
  induction rounds generalizing look with
  | zero => omega
  | succ rounds ih =>
      have hround := follows_round modes look
      rw [answer?]
      cases hnext : look.round modes with
      | inl answer =>
          rw [hnext] at hround
          exact congrArg some hround
      | inr next =>
          rw [hnext] at hround
          obtain ⟨hlt, houtcome⟩ := hround
          rw [← houtcome]
          exact ih next (by omega)

end LookAhead

namespace State

/-- The answer of a look-ahead over a chunk and what is on the stack below it, after so many rounds
of its loop. Where the line is too long already it looks at nothing. -/
def lookAhead? (page : Page) (s : State) (rounds : Nat) (chunk : Chunk) (stack : List Chunk) :
    Option Bool :=
  let room := page.width - s.column
  if room < 0 then some false else LookAhead.answer? s.modes rounds ⟨[chunk], stack, room.toNat⟩

theorem lookAhead?_eq (page : Page) (s : State) {rounds : Nat} {chunk : Chunk} {stack : List Chunk}
    (h : stackWeight (chunk :: stack) + stack.length < rounds) :
    s.lookAhead? page rounds chunk stack = some (s.fits page (chunk :: stack)) := by
  unfold lookAhead? fits Layout.fits
  simp only
  split
  · rfl
  · rw [LookAhead.answer?_eq]
    · rfl
    · simp only [LookAhead.weight, stackWeight_cons, stackWeight_nil] at h ⊢
      omega

/-- The machine is at its end after some number of steps, all of which it has taken. -/
theorem exists_last_step (page : Page) (s : State) :
    ∃ n ≤ s.weight, (s.run page n).step page = none ∧
      ∀ m < n, (s.run page m).step page = some (s.run page (m + 1)) := by
  induction hweight : s.weight using Nat.strongRecOn generalizing s with
  | ind weight ih =>
      cases hs : s.step page with
      | none => exact ⟨0, Nat.zero_le _, hs, fun m hm => absurd hm (Nat.not_lt_zero m)⟩
      | some t =>
          have hlt := weight_step hs
          obtain ⟨n, hn, hlast, hsteps⟩ := ih t.weight (by omega) t rfl
          have hrun (m : Nat) : s.run page (m + 1) = t.run page m := by rw [run, hs]
          refine ⟨n + 1, by omega, by rw [hrun]; exact hlast, fun m hm => ?_⟩
          cases m with
          | zero => rw [hrun]; exact hs
          | succ m =>
              rw [hrun, hrun]
              exact hsteps m (by omega)

/-- Every document is written in finitely many steps, at most as many as it weighs: after them
nothing is on the stack and nothing is held back. No look-ahead keeps the machine waiting. At every
moment on the way and over whatever chunks, its loop comes to the answer that the machine goes by,
in at most as many rounds as it has something to look at. -/
theorem layout_terminates (page : Page) (d : Doc) :
    (∃ n ≤ d.weight, (moment page d n).stack = [] ∧ (moment page d n).suffixes = [] ∧
      ∀ m < n, (moment page d m).step page = some (moment page d (m + 1))) ∧
    ∀ n chunk stack, ∃ rounds ≤ stackWeight (chunk :: stack) + stack.length + 1,
      (moment page d n).lookAhead? page rounds chunk stack =
        some ((moment page d n).fits page (chunk :: stack)) := by
  constructor
  · obtain ⟨n, hn, hlast, hsteps⟩ := exists_last_step page (start d.propagateBreaks)
    have hweight : (start d.propagateBreaks).weight = d.weight := by
      show d.propagateBreaks.weight = d.weight
      exact Doc.weight_settle d
    obtain ⟨hstack, hsuffixes⟩ := done_of_step hlast
    exact ⟨n, by omega, hstack, hsuffixes, hsteps⟩
  · exact fun n chunk stack =>
      ⟨_, Nat.le_refl _, lookAhead?_eq page (moment page d n) (Nat.lt_succ_self _)⟩

end State

end Layout

end RubyPretty
