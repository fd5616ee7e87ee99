import Mathlib.Data.List.Nodup
import RubyPretty.Proofs.Comments.Placement
/-!
# Whole lines

Lines that are whole numbers have an order. Sorting comments by such lines does not fail and puts
them in order (`exists_sortByLine`), and what comes out depends on the comments only, not on how
they were given, if each has a line of its own (`sortByLine_eq_of_perm`). A place is found for every
whole line in a tree with whole locations (`exists_place`).
-/

namespace RubyPretty

namespace Coordinate

def isWhole : Coordinate → Bool
  | .int _ => true
  | _ => false

theorem exists_int {a : Coordinate} (h : isWhole a = true) : ∃ n : Int, a = .int n := by
  cases a with
  | int n => exact ⟨n, rfl⟩
  | _ => cases h

theorem order_int (m n : Int) : order (.int m) (.int n) = .ok (compare m n) := by
  simp only [order, isOrdered, Json.compare?, Json.number?]
  rfl

theorem lt_int (m n : Int) : lt (.int m) (.int n) = .ok (decide (m < n)) := by
  have hcompare : (compare m n == .lt) = decide (m < n) := by
    rw [Bool.eq_iff_iff, beq_iff_eq, decide_eq_true_iff, Int.compare_eq_lt]
  rw [lt, order_int, ← hcompare]
  rfl

theorem le_int (m n : Int) : le (.int m) (.int n) = .ok (decide (m ≤ n)) := by
  have hcompare : (compare m n != .gt) = decide (m ≤ n) := by
    rw [Bool.eq_iff_iff, bne_iff_ne, decide_eq_true_iff, ne_eq, Int.compare_eq_gt, Int.not_lt]
  rw [le, order_int, ← hcompare]
  rfl

theorem exists_lt {a b : Coordinate} (ha : isWhole a = true) (hb : isWhole b = true) :
    ∃ before, lt a b = .ok before := by
  obtain ⟨m, rfl⟩ := exists_int ha
  obtain ⟨n, rfl⟩ := exists_int hb
  exact ⟨_, lt_int m n⟩

end Coordinate

def Span.isWhole (s : Span) : Bool := s.coordinates.all Coordinate.isWhole

/-- Whether the locations in a tree, where there are any, are whole numbers. -/
def Node.hasWholeLocations (n : Tree) : Bool := n.walk.all fun m => m.loc.all Span.isWhole

theorem Span.isWhole_lines {s : Span} (h : s.isWhole = true) :
    Coordinate.isWhole s.startLine = true ∧ Coordinate.isWhole s.endLine = true := by
  simp only [isWhole, coordinates, List.all_cons, Bool.and_eq_true] at h
  exact ⟨h.1, h.2.2.1⟩

theorem Span.exists_containsLine {s : Span} (hs : s.isWhole = true) {line : Coordinate}
    (hline : Coordinate.isWhole line = true) : ∃ covers, s.containsLine line = .ok covers := by
  obtain ⟨hstart, hend⟩ := isWhole_lines hs
  obtain ⟨m, hm⟩ := Coordinate.exists_int hstart
  obtain ⟨n, hn⟩ := Coordinate.exists_int hend
  obtain ⟨l, rfl⟩ := Coordinate.exists_int hline
  rw [containsLine, hm, hn, Coordinate.le_int, Coordinate.le_int]
  cases decide (m ≤ l)
  · exact ⟨false, rfl⟩
  · exact ⟨_, rfl⟩

namespace Comments

/-! ## Sorting -/

def NoLater (c d : Comment) : Prop := Coordinate.le c.line d.line = .ok true

theorem noLater_int {c d : Comment} {m n : Int} (hc : c.line = .int m) (hd : d.line = .int n) :
    NoLater c d ↔ m ≤ n := by
  rw [NoLater, hc, hd, Coordinate.le_int, Except.ok.injEq, decide_eq_true_iff]

theorem NoLater.trans {a b c : Comment} (ha : Coordinate.isWhole a.line = true)
    (hb : Coordinate.isWhole b.line = true) (hc : Coordinate.isWhole c.line = true)
    (hab : NoLater a b) (hbc : NoLater b c) : NoLater a c := by
  obtain ⟨l, hl⟩ := Coordinate.exists_int ha
  obtain ⟨m, hm⟩ := Coordinate.exists_int hb
  obtain ⟨n, hn⟩ := Coordinate.exists_int hc
  rw [noLater_int hl hm] at hab
  rw [noLater_int hm hn] at hbc
  rw [noLater_int hl hn]
  omega

theorem line_eq_of_noLater {c d : Comment} (hc : Coordinate.isWhole c.line = true)
    (hd : Coordinate.isWhole d.line = true) (hcd : NoLater c d) (hdc : NoLater d c) :
    c.line = d.line := by
  obtain ⟨m, hm⟩ := Coordinate.exists_int hc
  obtain ⟨n, hn⟩ := Coordinate.exists_int hd
  rw [noLater_int hm hn] at hcd
  rw [noLater_int hn hm] at hdc
  rw [hm, hn, show m = n by omega]

theorem exists_insertByLine {c : Comment} {cs : List Comment}
    (hc : Coordinate.isWhole c.line = true) (hcs : ∀ d ∈ cs, Coordinate.isWhole d.line = true)
    (hsorted : cs.Pairwise NoLater) :
    ∃ ds, insertByLine c cs = .ok ds ∧ ds.Pairwise NoLater := by
  induction cs with
  | nil => exact ⟨[c], rfl, List.pairwise_singleton _ _⟩
  | cons d cs ih =>
      have hd := hcs d List.mem_cons_self
      have hrest := fun e he => hcs e (List.mem_cons_of_mem d he)
      obtain ⟨hfirst, hpairs⟩ := List.pairwise_cons.mp hsorted
      obtain ⟨m, hm⟩ := Coordinate.exists_int hc
      obtain ⟨n, hn⟩ := Coordinate.exists_int hd
      by_cases hlt : n < m
      · obtain ⟨ds, hds, hordered⟩ := ih hrest hpairs
        refine ⟨d :: ds, ?_, List.pairwise_cons.mpr ⟨fun e he => ?_, hordered⟩⟩
        · rw [insertByLine, hm, hn, Coordinate.lt_int, decide_eq_true hlt, hds]
          rfl
        · rcases List.mem_cons.mp ((perm_insertByLine hds).mem_iff.mp he) with rfl | he
          · rw [noLater_int hn hm]
            omega
          · exact hfirst e he
      · have hcd : NoLater c d := by
          rw [noLater_int hm hn]
          omega
        refine ⟨c :: d :: cs, ?_, List.pairwise_cons.mpr ⟨fun e he => ?_, hsorted⟩⟩
        · rw [insertByLine, hm, hn, Coordinate.lt_int, decide_eq_false hlt]
          rfl
        · rcases List.mem_cons.mp he with rfl | he
          · exact hcd
          · exact hcd.trans hc hd (hrest e he) (hfirst e he)

theorem exists_sortByLine {cs : List Comment}
    (hcs : ∀ c ∈ cs, Coordinate.isWhole c.line = true) :
    ∃ ds, sortByLine cs = .ok ds ∧ ds.Pairwise NoLater := by
  induction cs with
  | nil => exact ⟨[], rfl, .nil⟩
  | cons c cs ih =>
      have hc := hcs c List.mem_cons_self
      obtain ⟨ds, hds, hsorted⟩ := ih fun d hd => hcs d (List.mem_cons_of_mem c hd)
      have hwhole : ∀ d ∈ ds, Coordinate.isWhole d.line = true := fun d hd =>
        hcs d (List.mem_cons_of_mem c ((perm_sortByLine hds).mem_iff.mp hd))
      obtain ⟨es, hes, hordered⟩ := exists_insertByLine hc hwhole hsorted
      refine ⟨es, ?_, hordered⟩
      rw [sortByLine, hds]
      exact hes

/-- Comments with a line each are sorted in one way, however they are given. -/
theorem sortByLine_eq_of_perm {cs ds : List Comment} (hperm : ds.Perm cs)
    (hcs : ∀ c ∈ cs, Coordinate.isWhole c.line = true)
    (hlines : (cs.map (·.line)).Nodup) : sortByLine ds = sortByLine cs := by
  obtain ⟨sorted, hsorted, horder⟩ := exists_sortByLine hcs
  obtain ⟨sorted', hsorted', horder'⟩ :=
    exists_sortByLine fun c hc => hcs c (hperm.mem_iff.mp hc)
  have hmem : ∀ c ∈ sorted, c ∈ cs := fun c hc => (perm_sortByLine hsorted).mem_iff.mp hc
  have hmem' : ∀ c ∈ sorted', c ∈ cs := fun c hc =>
    hperm.mem_iff.mp ((perm_sortByLine hsorted').mem_iff.mp hc)
  have hsame : sorted' = sorted := by
    apply List.Perm.eq_of_pairwise _ horder' horder
    · exact (perm_sortByLine hsorted').trans (hperm.trans (perm_sortByLine hsorted).symm)
    · intro c d hc hd hcd hdc
      exact List.inj_on_of_nodup_map hlines (hmem' c hc) (hmem d hd)
        (line_eq_of_noLater (hcs c (hmem' c hc)) (hcs d (hmem d hd)) hcd hdc)
  rw [hsorted, hsorted', hsame]

/-! ## Placing -/

theorem exists_filterAuxM {α : Type} {p : α → Outcome Bool} {as : List α}
    (h : ∀ a ∈ as, ∃ b, p a = .ok b) (acc : List α) : ∃ bs, as.filterAuxM p acc = .ok bs := by
  induction as generalizing acc with
  | nil => exact ⟨acc, rfl⟩
  | cons a as ih =>
      obtain ⟨keep, hkeep⟩ := h a List.mem_cons_self
      obtain ⟨bs, hbs⟩ :=
        ih (fun b hb => h b (List.mem_cons_of_mem a hb)) (bif keep then a :: acc else acc)
      refine ⟨bs, ?_⟩
      rw [List.filterAuxM, hkeep]
      exact hbs

theorem exists_filterM {α : Type} {p : α → Outcome Bool} {as : List α}
    (h : ∀ a ∈ as, ∃ b, p a = .ok b) : ∃ bs, as.filterM p = .ok bs := by
  obtain ⟨bs, hbs⟩ := exists_filterAuxM h []
  refine ⟨bs.reverse, ?_⟩
  rw [List.filterM, hbs]
  rfl

theorem exists_firstGreatest {α : Type} (key : α → Nat) (a : α) (as : List α) :
    ∃ b, firstGreatest key (a :: as) = some b := by
  unfold firstGreatest
  split
  · exact ⟨a, rfl⟩
  · split
    · exact ⟨a, rfl⟩
    · exact ⟨_, rfl⟩

/-- The span of a statement list and the locations of its statements are whole numbers. -/
structure StatementList.IsWhole (entry : StatementList) : Prop where
  span : ∀ span, entry.span = some span → span.isWhole = true
  statements : ∀ s ∈ entry.statements, ∀ span, s.node.loc = some span → span.isWhole = true

theorem exists_covers {entry : StatementList} (h : entry.IsWhole) {line : Coordinate}
    (hline : Coordinate.isWhole line = true) : ∃ covers, entry.covers line = .ok covers := by
  unfold StatementList.covers
  split
  · exact ⟨true, rfl⟩
  · next span hspan => exact Span.exists_containsLine (h.span span hspan) hline

theorem exists_startsAfter {s : Statement} {line : Coordinate}
    (h : ∀ span, s.node.loc = some span → span.isWhole = true)
    (hline : Coordinate.isWhole line = true) : ∃ after, startsAfter line s = .ok after := by
  unfold startsAfter Node.startLine?
  cases hloc : s.node.loc with
  | none => exact ⟨false, rfl⟩
  | some span => exact Coordinate.exists_lt hline (Span.isWhole_lines (h span hloc)).1

theorem exists_startsBefore {s : Statement} {line : Coordinate}
    (h : ∀ span, s.node.loc = some span → span.isWhole = true)
    (hline : Coordinate.isWhole line = true) : ∃ before, startsBefore line s = .ok before := by
  unfold startsBefore Node.startLine?
  cases hloc : s.node.loc with
  | none => exact ⟨true, rfl⟩
  | some span => exact Coordinate.exists_lt (Span.isWhole_lines (h span hloc)).1 hline

theorem exists_placeIn {entry : StatementList} (h : entry.IsWhole) {line : Coordinate}
    (hline : Coordinate.isWhole line = true) : ∃ placement, placeIn line entry = .ok placement := by
  unfold placeIn
  split
  · split
    · exact ⟨_, rfl⟩
    · exact ⟨_, rfl⟩
  · next first more hreal =>
      have hwhole : ∀ s ∈ first :: more, ∀ span, s.node.loc = some span → span.isWhole = true :=
        fun s hs => h.statements s (List.mem_of_mem_filter (hreal ▸ hs))
      obtain ⟨after, hafter⟩ :=
        exists_filterM fun s hs => exists_startsAfter (hwhole s hs) hline
      obtain ⟨before, hbefore⟩ :=
        exists_filterM fun s hs => exists_startsBefore (hwhole s hs) hline
      simp only [hafter, hbefore]
      cases after with
      | nil => exact ⟨_, rfl⟩
      | cons next rest => exact ⟨_, rfl⟩

theorem exists_innermost? {line : Coordinate} (hline : Coordinate.isWhole line = true)
    {lists : List StatementList} (hlists : ∀ entry ∈ lists, entry.IsWhole) (hne : lists ≠ []) :
    ∃ entry, innermost? line lists = .ok (some entry) := by
  obtain ⟨around, haround⟩ := exists_filterM fun e he => exists_covers (hlists e he) hline
  rw [innermost?, haround]
  cases around with
  | nil =>
      obtain ⟨first, rest, rfl⟩ := List.exists_cons_of_ne_nil hne
      exact ⟨first, rfl⟩
  | cons e es =>
      obtain ⟨entry, hentry⟩ := exists_firstGreatest (·.depth) e es
      exact ⟨entry, congrArg Except.ok hentry⟩

theorem exists_place {line : Coordinate} (hline : Coordinate.isWhole line = true)
    {lists : List StatementList} (hlists : ∀ entry ∈ lists, entry.IsWhole) (hne : lists ≠ []) :
    ∃ placement, place line lists = .ok placement := by
  unfold place
  split
  · exact ⟨_, rfl⟩
  · obtain ⟨entry, hentry⟩ := exists_innermost? hline hlists hne
    obtain ⟨placement, hplacement⟩ :=
      exists_placeIn (hlists entry (mem_of_innermost? hentry)) hline
    refine ⟨placement, ?_⟩
    rw [hentry]
    exact hplacement

end Comments

end RubyPretty
