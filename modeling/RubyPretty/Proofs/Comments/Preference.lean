import Mathlib.Data.List.MinMax
import RubyPretty.Proofs.Comments.Conservation
/-!
# Preference among places

What is said here about the place of a comment does not mention faults: locations and lines are
whole numbers. A statement list is a `Spot` of the tree, which knows all nodes around it. How deep
it is nested and which span it covers are read off from them, and the statement lists that are
searched are those spots (`statementLists_eq`). `Preferred` is the order in which a place is looked
for; there is always one (`exists_preferred`), and it is the place that is found
(`place_of_preferred`).
-/

namespace RubyPretty

namespace Comments

/-! ## Spots -/

/-- A node of a tree, its position in the walk and the nodes around it, the nearest one first. -/
structure Spot where
  position : Nat
  node : Tree
  around : List Tree

namespace Spot

def depth (s : Spot) : Nat := s.around.length

/-- The location of a node, or else the one of the nearest node around it that has any. -/
def span (s : Spot) : Option Span := (s.node :: s.around).findSome? (·.loc)

def statements (s : Spot) : List Statement := statementsAt (s.position + 1) s.node.body

def real (s : Spot) : List Statement := s.statements.filter (!·.isVoid)

def toList (s : Spot) : StatementList :=
  ⟨s.position, s.node.body.length, s.statements, s.span, s.depth⟩

end Spot

mutual

/-- The nodes of a value in the order of the walk, with those around them. -/
def spotsIn (around : List Tree) (position : Nat) : Value → List Spot
  | .node ⟨tag, body, comments, loc⟩ =>
      ⟨position, ⟨tag, body, comments, loc⟩, around⟩ ::
        if isTokenTag tag then []
        else spotsInAll (⟨tag, body, comments, loc⟩ :: around) (position + 1) body
  | .list vs => spotsInAll around position vs
  | _ => []

def spotsInAll (around : List Tree) (position : Nat) : List Value → List Spot
  | [] => []
  | v :: vs => spotsIn around position v ++ spotsInAll around (position + v.nodeCount) vs

end

/-- The statement lists of a tree, in the order of the walk. -/
def listSpots (tree : Tree) : List Spot :=
  (spotsIn [] 0 (.node tree)).filter (·.node.tag = "stmts")

theorem spotsIn_node (around : List Tree) (position : Nat) (n : Tree) :
    spotsIn around position (.node n) =
      ⟨position, n, around⟩ ::
        if n.isToken then [] else spotsInAll (n :: around) (position + 1) n.body := rfl

theorem zipIdx_spotsInAll (vs : List Value)
    (h : ∀ v ∈ vs, ∀ around position,
      (spotsIn around position v).map (fun s => (s.node, s.position)) = v.walk.zipIdx position)
    (around : List Tree) (position : Nat) :
    (spotsInAll around position vs).map (fun s => (s.node, s.position)) =
      (vs.flatMap Value.walk).zipIdx position := by
  induction vs generalizing position with
  | nil => rfl
  | cons v vs ih =>
      rw [spotsInAll, List.map_append, h v List.mem_cons_self, Value.nodeCount_eq,
        ih fun w hw => h w (List.mem_cons_of_mem v hw), List.flatMap_cons, List.zipIdx_append,
        Nat.add_comm]

/-- The spots of a value are the nodes of its walk, each at its position. -/
theorem zipIdx_spotsIn (v : Value) (around : List Tree) (position : Nat) :
    (spotsIn around position v).map (fun s => (s.node, s.position)) = v.walk.zipIdx position := by
  induction v using Value.induction generalizing around position with
  | null | bool | int | real | text => rfl
  | list vs ih =>
      rw [Value.walk_list]
      exact zipIdx_spotsInAll vs (fun v hv => ih v hv) around position
  | node n ih =>
      rw [spotsIn_node, Value.walk_node, List.map_cons, List.zipIdx_cons]
      cases n.isToken with
      | true => rfl
      | false =>
          exact congrArg _
            (zipIdx_spotsInAll n.body (fun v hv => ih v hv) (n :: around) (position + 1))

theorem listsIn_node (span : Option Span) (depth position : Nat) (n : Tree) :
    listsIn span depth position (.node n) =
      (if n.tag = "stmts" then
        [⟨position, n.body.length, statementsAt (position + 1) n.body, n.loc.or span, depth⟩]
      else []) ++
        if n.isToken then [] else listsInAll (n.loc.or span) (depth + 1) (position + 1) n.body :=
  rfl

theorem listsInAll_eq (vs : List Value)
    (h : ∀ v ∈ vs, ∀ around position,
      listsIn (around.findSome? (·.loc)) around.length position v =
        ((spotsIn around position v).filter (·.node.tag = "stmts")).map Spot.toList)
    (around : List Tree) (position : Nat) :
    listsInAll (around.findSome? (·.loc)) around.length position vs =
      ((spotsInAll around position vs).filter (·.node.tag = "stmts")).map Spot.toList := by
  induction vs generalizing position with
  | nil => rfl
  | cons v vs ih =>
      rw [listsInAll, spotsInAll, List.filter_append, List.map_append, h v List.mem_cons_self,
        ih fun w hw => h w (List.mem_cons_of_mem v hw)]

theorem listsIn_eq (v : Value) (around : List Tree) (position : Nat) :
    listsIn (around.findSome? (·.loc)) around.length position v =
      ((spotsIn around position v).filter (·.node.tag = "stmts")).map Spot.toList := by
  induction v using Value.induction generalizing around position with
  | null | bool | int | real | text => rfl
  | list vs ih => exact listsInAll_eq vs (fun v hv => ih v hv) around position
  | node n ih =>
      -- the span that is handed down is the one that is found among the nodes around
      have hspan : n.loc.or (around.findSome? (·.loc)) = (n :: around).findSome? (·.loc) := by
        rw [List.findSome?_cons]
        cases n.loc <;> rfl
      have hbody := listsInAll_eq n.body (fun v hv => ih v hv) (n :: around) (position + 1)
      rw [listsIn_node, hspan, spotsIn_node]
      by_cases htag : n.tag = "stmts"
      · have htoken : n.isToken = false := by rw [Node.isToken, htag]; decide
        rw [if_pos htag, htoken, List.filter_cons_of_pos (by simpa using htag), List.map_cons]
        exact congrArg _ hbody
      · rw [if_neg htag, List.filter_cons_of_neg (by simpa using htag)]
        cases n.isToken with
        | true => rfl
        | false => exact hbody

theorem statementLists_eq (tree : Tree) :
    statementLists tree = (listSpots tree).map Spot.toList :=
  listsIn_eq (.node tree) [] 0

/-! ## Order of preference -/

def Statement.endsOn (line : Int) (s : Statement) : Bool :=
  s.node.endLine?.any fun stop => stop.number? == some line

def Statement.isAfter (line : Int) (s : Statement) : Bool :=
  s.node.startLine?.any fun start => start.number?.any (line < ·)

/-- A statement without a location counts as one that starts before a line. -/
def Statement.isBefore (line : Int) (s : Statement) : Bool :=
  s.node.startLine?.all fun start => start.number?.any (· < line)

/-- A list without a span holds every line. -/
def Spot.holdsLine (line : Int) (s : Spot) : Bool :=
  s.span.all fun span =>
    span.startLine.number?.any (· ≤ line) && span.endLine.number?.any (line ≤ ·)

def enders (line : Int) (lists : List Spot) : List (Spot × Statement) :=
  lists.flatMap fun list => (list.real.filter (·.endsOn line)).map fun s => (list, s)

/-- The deepest list that holds a line, or else the first list of all. -/
def deepest? (line : Int) (lists : List Spot) : Option Spot :=
  ((lists.filter (·.holdsLine line)).argmax (·.depth)).or lists.head?

/-- The node that gets a comment of a line, and whether the comment stands above it. -/
inductive Preferred (line : Int) (lists : List Spot) : Statement → Bool → Prop
  /-- The outermost statement that ends on the line. -/
  | behind {list : Spot} {s : Statement}
      (hender : (enders line lists).argmin (·.1.depth) = some (list, s)) :
      Preferred line lists s false
  /-- The next statement of the list around the line. -/
  | above {list : Spot} {s : Statement} (hnone : enders line lists = [])
      (hlist : deepest? line lists = some list)
      (hafter : list.real.find? (·.isAfter line) = some s) : Preferred line lists s true
  /-- The last statement before the line, or else the last one of the list. -/
  | below {list : Spot} {s : Statement} (hnone : enders line lists = [])
      (hlist : deepest? line lists = some list)
      (hafter : list.real.find? (·.isAfter line) = none)
      (hbefore : (list.real.filter (·.isBefore line)).getLast?.or list.real.getLast? = some s) :
      Preferred line lists s false
  /-- The first placeholder of a list that has nothing else. -/
  | placeholder {list : Spot} {s : Statement} (hnone : enders line lists = [])
      (hlist : deepest? line lists = some list) (hreal : list.real = [])
      (hfirst : list.statements.head? = some s) : Preferred line lists s false
  /-- The list itself if it has no statement at all. -/
  | emptyList {list : Spot} (hnone : enders line lists = [])
      (hlist : deepest? line lists = some list) (hempty : list.statements = []) :
      Preferred line lists ⟨list.position, list.node⟩ false

theorem exists_preferred (line : Int) {lists : List Spot} (hlists : lists ≠ []) :
    ∃ s leading, Preferred line lists s leading := by
  cases hender : (enders line lists).argmin (·.1.depth) with
  | some found => exact ⟨found.2, false, .behind hender⟩
  | none =>
      have hnone : enders line lists = [] := List.argmin_eq_none.mp hender
      obtain ⟨list, hlist⟩ : ∃ list, deepest? line lists = some list := by
        obtain ⟨first, rest, rfl⟩ := List.exists_cons_of_ne_nil hlists
        rw [deepest?]
        cases ((first :: rest).filter (·.holdsLine line)).argmax (·.depth) with
        | none => exact ⟨first, rfl⟩
        | some list => exact ⟨list, rfl⟩
      cases hfirst : list.statements with
      | nil => exact ⟨_, _, .emptyList hnone hlist hfirst⟩
      | cons s rest =>
          by_cases hreal : list.real = []
          · exact ⟨s, _, .placeholder hnone hlist hreal (by rw [hfirst]; rfl)⟩
          · cases hafter : list.real.find? (·.isAfter line) with
            | some next => exact ⟨next, _, .above hnone hlist hafter⟩
            | none =>
                obtain ⟨last, hlast⟩ : ∃ last,
                    (list.real.filter (·.isBefore line)).getLast?.or list.real.getLast? =
                      some last := by
                  rw [← Option.isSome_iff_exists, Option.isSome_or, Bool.or_eq_true]
                  exact .inr (by simpa using hreal)
                exact ⟨last, _, .below hnone hlist hafter hlast⟩

/-! ## Search among whole lines -/

theorem firstLeast_eq_argmin {α : Type} (key : α → Nat) (as : List α) :
    firstLeast key as = as.argmin key := by
  induction as with
  | nil => rfl
  | cons a as ih =>
      rw [firstLeast, ih, List.argmin_cons]
      cases as.argmin key with
      | none => rfl
      | some b => simp only [← Nat.not_lt, ite_not]

theorem firstGreatest_eq_argmax {α : Type} (key : α → Nat) (as : List α) :
    firstGreatest key as = as.argmax key := by
  induction as with
  | nil => rfl
  | cons a as ih =>
      rw [firstGreatest, ih, List.argmax_cons]
      cases as.argmax key with
      | none => rfl
      | some b => simp only [← Nat.not_lt, ite_not]

theorem argmax_map {α β γ : Type} [LinearOrder γ] (f : α → β) (key : β → γ) (as : List α) :
    (as.map f).argmax key = (as.argmax fun a => key (f a)).map f := by
  induction as with
  | nil => rfl
  | cons a as ih =>
      rw [List.map_cons, List.argmax_cons, ih, List.argmax_cons]
      cases as.argmax fun a => key (f a) with
      | none => rfl
      | some b => by_cases hlt : key (f a) < key (f b) <;> simp [hlt]

theorem argmin_map {α β : Type} (f : α → β) (key : β → Nat) (as : List α) :
    (as.map f).argmin key = (as.argmin fun a => key (f a)).map f :=
  argmax_map f (OrderDual.toDual ∘ key) as

theorem containsLine_int {span : Span} (h : span.isWhole = true) (line : Int) :
    span.containsLine (.int line) =
      .ok (span.startLine.number?.any (· ≤ line) && span.endLine.number?.any (line ≤ ·)) := by
  obtain ⟨hstart, hend⟩ := Span.isWhole_lines h
  obtain ⟨m, hm⟩ := Coordinate.exists_int hstart
  obtain ⟨n, hn⟩ := Coordinate.exists_int hend
  rw [Span.containsLine, hm, hn, Coordinate.le_int, Coordinate.le_int]
  cases hle : decide (m ≤ line) <;> simp [Json.number?, hle] <;> rfl

theorem covers_toList {list : Spot} (h : list.toList.IsWhole) (line : Int) :
    list.toList.covers (.int line) = .ok (list.holdsLine line) := by
  rw [StatementList.covers, Spot.holdsLine, show list.toList.span = list.span from rfl]
  cases hspan : list.span with
  | none => rfl
  | some span => exact containsLine_int (h.span span hspan) line

theorem lines_cases {n : Tree} (h : ∀ span, n.loc = some span → span.isWhole = true) :
    (n.startLine? = none ∧ n.endLine? = none) ∨
      ∃ start stop : Int, n.startLine? = some (.int start) ∧ n.endLine? = some (.int stop) := by
  unfold Node.startLine? Node.endLine?
  cases hloc : n.loc with
  | none => exact .inl ⟨rfl, rfl⟩
  | some span =>
      obtain ⟨hstart, hend⟩ := Span.isWhole_lines (h span hloc)
      obtain ⟨start, hstart⟩ := Coordinate.exists_int hstart
      obtain ⟨stop, hstop⟩ := Coordinate.exists_int hend
      exact .inr ⟨start, stop, congrArg some hstart, congrArg some hstop⟩

theorem startsAfter_int {s : Statement}
    (h : ∀ span, s.node.loc = some span → span.isWhole = true) (line : Int) :
    startsAfter (.int line) s = .ok (s.isAfter line) := by
  rcases lines_cases h with ⟨hstart, -⟩ | ⟨start, -, hstart, -⟩
  · rw [startsAfter, Statement.isAfter, hstart]
    rfl
  · rw [startsAfter, Statement.isAfter, hstart]
    exact Coordinate.lt_int line start

theorem startsBefore_int {s : Statement}
    (h : ∀ span, s.node.loc = some span → span.isWhole = true) (line : Int) :
    startsBefore (.int line) s = .ok (s.isBefore line) := by
  rcases lines_cases h with ⟨hstart, -⟩ | ⟨start, -, hstart, -⟩
  · rw [startsBefore, Statement.isBefore, hstart]
    rfl
  · rw [startsBefore, Statement.isBefore, hstart]
    exact Coordinate.lt_int start line

theorem same_int {s : Statement}
    (h : ∀ span, s.node.loc = some span → span.isWhole = true) (line : Int) :
    s.node.endLine?.any (Json.same (.int line)) = s.endsOn line := by
  rw [Statement.endsOn]
  rcases lines_cases h with ⟨-, hstop⟩ | ⟨-, stop, -, hstop⟩
  · rw [hstop]
    rfl
  · have hcompare : Json.compare? (.int line) (.int stop) = some (compare line stop) := by
      simp only [Json.compare?, Json.number?]
    rw [hstop, Option.any_some, Option.any_some, Json.same, hcompare, Bool.eq_iff_iff, beq_iff_eq,
      beq_iff_eq, Option.some.injEq, Int.compare_eq_eq]
    exact ⟨fun h => congrArg some h.symm, fun h => (Option.some.inj h).symm⟩

theorem endingOn_int {lists : List Spot} (h : ∀ list ∈ lists, list.toList.IsWhole) (line : Int) :
    endingOn (.int line) (lists.map Spot.toList) =
      (enders line lists).map fun found => (found.1.depth, found.2) := by
  rw [endingOn, enders, List.flatMap_map, List.map_flatMap]
  apply List.flatMap_congr
  intro list hlist
  rw [List.map_map, Spot.real, List.filter_filter]
  refine congrArg _ (List.filter_congr fun s hs => ?_)
  rw [same_int ((h list hlist).statements s hs)]

theorem innermost?_int {lists : List Spot} (h : ∀ list ∈ lists, list.toList.IsWhole) (line : Int) :
    innermost? (.int line) (lists.map Spot.toList) =
      .ok ((deepest? line lists).map Spot.toList) := by
  rw [innermost?, Except.filterM_map_eq_ok fun list hlist => covers_toList (h list hlist) line,
    deepest?]
  cases hholds : lists.filter (·.holdsLine line) with
  | nil => exact congrArg Except.ok List.head?_map
  | cons list rest =>
      show Except.ok (firstGreatest _ ((list :: rest).map Spot.toList)) = _
      rw [firstGreatest_eq_argmax, argmax_map]
      show Except.ok (((list :: rest).argmax (·.depth)).map Spot.toList) = _
      cases hfound : (list :: rest).argmax (·.depth) with
      | none => cases List.argmax_eq_none.mp hfound
      | some found => rfl

theorem placeIn_of_real {list : Spot} (h : list.toList.IsWhole) (line : Int)
    (hreal : list.real ≠ []) :
    placeIn (.int line) list.toList =
      .ok ((list.real.find? (·.isAfter line)).elim
        (.below ((list.real.filter (·.isBefore line)).getLast?.getD (list.real.getLast hreal)))
        .above) := by
  have hwhole : ∀ s ∈ list.real, ∀ span, s.node.loc = some span → span.isWhole = true :=
    fun s hs => h.statements s (List.mem_of_mem_filter hs)
  have hafter := Except.filterM_eq_ok fun s hs => startsAfter_int (hwhole s hs) line
  have hbefore := Except.filterM_eq_ok fun s hs => startsBefore_int (hwhole s hs) line
  unfold placeIn
  split
  case h_1 hnil => exact absurd hnil hreal
  case h_2 first more hcons =>
    have hcons : list.real = first :: more := hcons
    simp only [hcons] at hafter hbefore ⊢
    rw [hafter, hbefore, ← List.head?_filter]
    cases (first :: more).filter (·.isAfter line) <;> rfl

theorem placeIn_of_void {list : Spot} (line : Int) (hreal : list.real = []) :
    placeIn (.int line) list.toList =
      .ok (list.statements.head?.elim (.emptyList list.position) .placeholder) := by
  unfold placeIn
  split
  case h_1 =>
    split
    case h_1 hnil =>
      have hnil : list.statements = [] := hnil
      rw [hnil]
      rfl
    case h_2 first rest hcons =>
      have hcons : list.statements = first :: rest := hcons
      rw [hcons]
      rfl
  case h_2 first more hcons =>
    have hcons : list.real = first :: more := hcons
    rw [hreal] at hcons
    cases hcons

theorem mem_of_deepest? {line : Int} {lists : List Spot} {list : Spot}
    (h : deepest? line lists = some list) : list ∈ lists := by
  rcases Option.or_eq_some_iff.mp h with hdeepest | ⟨-, hfirst⟩
  · exact List.mem_of_mem_filter (List.argmax_mem hdeepest)
  · exact List.mem_of_mem_head? hfirst

theorem place_of_preferred {lists : List Spot} (h : ∀ list ∈ lists, list.toList.IsWhole)
    {line : Int} {s : Statement} {leading : Bool} (hs : Preferred line lists s leading) :
    ∃ placement, place (.int line) (lists.map Spot.toList) = .ok placement ∧
      placement.position = s.position ∧ placement.leading = leading := by
  -- without a statement that ends on the line, all depends on the deepest list
  have hplace : ∀ {list}, enders line lists = [] → deepest? line lists = some list →
      place (.int line) (lists.map Spot.toList) = placeIn (.int line) list.toList := by
    intro list hnone hlist
    rw [place, endingOn_int h, hnone, innermost?_int h, hlist]
    rfl
  cases hs with
  | @behind list _ hender =>
      have hleast : firstLeast (·.1) (endingOn (.int line) (lists.map Spot.toList)) =
          some (list.depth, s) := by
        rw [endingOn_int h, firstLeast_eq_argmin, argmin_map]
        exact congrArg (Option.map _) hender
      refine ⟨.behind s, ?_, rfl, rfl⟩
      rw [place, hleast]
      rfl
  | @above list _ hnone hlist hafter =>
      have hreal : list.real ≠ [] := List.ne_nil_of_mem (List.mem_of_find?_eq_some hafter)
      refine ⟨.above s, ?_, rfl, rfl⟩
      rw [hplace hnone hlist, placeIn_of_real (h list (mem_of_deepest? hlist)) line hreal, hafter]
      rfl
  | @below list _ hnone hlist hafter hbefore =>
      have hreal : list.real ≠ [] := by
        intro hnil
        rw [hnil] at hbefore
        cases hbefore
      refine ⟨.below s, ?_, rfl, rfl⟩
      rw [hplace hnone hlist, placeIn_of_real (h list (mem_of_deepest? hlist)) line hreal, hafter]
      rw [List.getLast?_eq_some_getLast hreal, Option.or_some, Option.some.injEq] at hbefore
      exact congrArg (fun s => Except.ok (Placement.below s)) hbefore
  | placeholder hnone hlist hreal hfirst =>
      refine ⟨.placeholder s, ?_, rfl, rfl⟩
      rw [hplace hnone hlist, placeIn_of_void line hreal, hfirst]
      rfl
  | emptyList hnone hlist hempty =>
      refine ⟨.emptyList _, ?_, rfl, rfl⟩
      rw [hplace hnone hlist, placeIn_of_void line (by rw [Spot.real, hempty]; rfl), hempty]
      rfl

/-! ## The comment of the last line -/

theorem insertByLine_concat {a c : Comment} {cs ds : List Comment}
    (hlast : Coordinate.lt c.line a.line = .ok false) (h : insertByLine a cs = .ok ds) :
    insertByLine a (cs ++ [c]) = .ok (ds ++ [c]) := by
  induction cs generalizing ds with
  | nil =>
      cases h
      rw [List.nil_append, insertByLine, hlast]
      rfl
  | cons d cs ih =>
      rw [insertByLine, Except.bind_eq_ok] at h
      obtain ⟨isBefore, hbefore, h⟩ := h
      rw [List.cons_append, insertByLine, hbefore]
      cases isBefore with
      | false =>
          cases h
          rfl
      | true =>
          obtain ⟨es, hes, h⟩ := Except.bind_eq_ok.mp h
          cases h
          show (insertByLine a (cs ++ [c]) >>= fun es => pure (d :: es)) = _
          rw [ih hes]
          rfl

/-- A comment that is last and on no earlier line than the others stays last. -/
theorem sortByLine_concat {c : Comment} {cs ds : List Comment}
    (hlast : ∀ a ∈ cs, Coordinate.lt c.line a.line = .ok false) (h : sortByLine cs = .ok ds) :
    sortByLine (cs ++ [c]) = .ok (ds ++ [c]) := by
  induction cs generalizing ds with
  | nil =>
      cases h
      rfl
  | cons a cs ih =>
      rw [sortByLine, Except.bind_eq_ok] at h
      obtain ⟨es, hes, h⟩ := h
      rw [List.cons_append, sortByLine, ih (fun b hb => hlast b (List.mem_cons_of_mem a hb)) hes]
      exact insertByLine_concat (hlast a List.mem_cons_self) h

theorem placeAll_concat {lists : List StatementList} {c : Comment} {cs : List Comment}
    {placement : Placement} (hcs : (placeAll lists cs).2 = none)
    (hc : place c.line lists = .ok placement) :
    placeAll lists (cs ++ [c]) =
      ((placeAll lists cs).1 ++ [⟨{ c with leading := placement.leading }, placement⟩], none) := by
  induction cs with
  | nil => simp only [List.nil_append, placeAll, hc]
  | cons d cs ih =>
      rw [List.cons_append, placeAll]
      rw [placeAll] at hcs ⊢
      cases hd : place d.line lists with
      | error cause => simp [hd] at hcs
      | ok first =>
          simp only [hd] at hcs ⊢
          rw [ih hcs]
          rfl

theorem schedule_concat {tree : Tree} (hstmts : ∃ n ∈ tree.walk, n.tag = "stmts") {c : Comment}
    {line : Int} (hline : c.line = .int line) {placed : List Comment}
    (hplaced : ∀ d ∈ placed, ∃ m ≤ line, d.line = .int m) :
    ∃ sorted, schedule tree placed = .ok sorted ∧
      schedule tree (placed ++ [c]) = .ok (sorted ++ [c]) ∧
      ∀ d ∈ sorted, Coordinate.isWhole d.line = true := by
  have hwhole : ∀ d ∈ placed, Coordinate.isWhole d.line = true := by
    intro d hd
    obtain ⟨m, -, hm⟩ := hplaced d hd
    rw [hm]
    rfl
  have hc : Coordinate.isWhole c.line = true := by
    rw [hline]
    rfl
  have hlast : ∀ d ∈ placed, Coordinate.lt c.line d.line = .ok false := by
    intro d hd
    obtain ⟨m, hle, hm⟩ := hplaced d hd
    rw [hline, hm, Coordinate.lt_int, decide_eq_false (by omega)]
  have hall : ∀ d ∈ placed ++ [c], Coordinate.isWhole d.line = true :=
    List.forall_mem_append.mpr ⟨hwhole, List.forall_mem_singleton.mpr hc⟩
  obtain ⟨sorted, hsorted, -⟩ := exists_sortByLine hwhole
  refine ⟨sorted, (schedule_of_lines hstmts hwhole).trans hsorted,
    (schedule_of_lines hstmts hall).trans (sortByLine_concat hlast hsorted), fun d hd => ?_⟩
  exact hwhole d ((perm_sortByLine hsorted).mem_iff.mp hd)

theorem attach_concat {tree : Tree} {c : Comment} {placed sorted : List Comment}
    {placement : Placement} (hplaced : schedule tree placed = .ok sorted)
    (hall : schedule tree (placed ++ [c]) = .ok (sorted ++ [c]))
    (hfault : (placeAll (statementLists tree) sorted).2 = none)
    (hc : place c.line (statementLists tree) = .ok placement) :
    (attach tree (placed ++ [c])).fault? = none ∧
      (attach tree (placed ++ [c])).tree = (attach tree placed).tree.addComment
        { c with leading := placement.leading } placement.position := by
  rw [attach, attach, hall, hplaced]
  simp only [placeAll_concat hfault hc, List.foldl_append]
  exact ⟨trivial, rfl⟩

/-! ## Attaching -/

theorem StandsAt.getElem? {n : Tree} {walk : List Tree} {i : Nat}
    (h : StandsAt (Value.node n).walk i walk) : walk[i]? = some n := by
  obtain ⟨before, after, rfl, rfl⟩ := h
  rw [Value.walk_node]
  simp

theorem getElem?_of_mem_listSpots {tree : Tree} {list : Spot} (h : list ∈ listSpots tree) :
    tree.walk[list.position]? = some list.node := by
  have hmem : (list.node, list.position) ∈ tree.walk.zipIdx := by
    rw [Node.walk, ← zipIdx_spotsIn (.node tree) [] 0]
    exact List.mem_map.mpr ⟨list, List.mem_of_mem_filter h, rfl⟩
  exact List.mem_zipIdx_iff_getElem?.mp hmem

theorem getElem?_of_mem_statements {tree : Tree} {list : Spot} (h : list ∈ listSpots tree)
    {s : Statement} (hs : s ∈ list.statements) : tree.walk[s.position]? = some s.node := by
  have hlist : list.toList ∈ statementLists tree := by
    rw [statementLists_eq]
    exact List.mem_map_of_mem h
  obtain ⟨i, hi, hstands⟩ := (isIn_of_mem (.node tree) none 0 0 _ hlist).statements s hs
  rw [hi, Nat.zero_add]
  exact hstands.getElem?

theorem getElem?_of_preferred {tree : Tree} {line : Int} {s : Statement} {leading : Bool}
    (h : Preferred line (listSpots tree) s leading) : tree.walk[s.position]? = some s.node := by
  have hreal : ∀ {list : Spot}, list ∈ listSpots tree → s ∈ list.real →
      tree.walk[s.position]? = some s.node :=
    fun hlist hs => getElem?_of_mem_statements hlist (List.mem_of_mem_filter hs)
  cases h with
  | behind hender =>
      have hmem := List.argmin_mem hender
      simp only [enders, List.mem_flatMap, List.mem_map, Prod.mk.injEq] at hmem
      obtain ⟨list, hlist, _, hs, rfl, rfl⟩ := hmem
      exact hreal hlist (List.mem_of_mem_filter hs)
  | above _ hlist hafter =>
      exact hreal (mem_of_deepest? hlist) (List.mem_of_find?_eq_some hafter)
  | below _ hlist _ hbefore =>
      apply hreal (mem_of_deepest? hlist)
      rcases Option.or_eq_some_iff.mp hbefore with hlast | ⟨-, hlast⟩
      · exact List.mem_of_mem_filter (List.mem_of_getLast? hlast)
      · exact List.mem_of_getLast? hlast
  | placeholder _ hlist _ hfirst =>
      exact getElem?_of_mem_statements (mem_of_deepest? hlist) (List.mem_of_mem_head? hfirst)
  | emptyList _ hlist _ => exact getElem?_of_mem_listSpots (mem_of_deepest? hlist)

/-- One comment more, on no earlier line than those before it, goes to the place of preference:
there is one, it is a node of the tree, and it gets the comment behind those that it has. Nothing
else changes. -/
theorem attach_prefers (tree : Tree) (placed : List Comment) (c : Comment) (line : Int)
    (hlocations : tree.hasWholeLocations = true) (hstmts : ∃ n ∈ tree.walk, n.tag = "stmts")
    (hline : c.line = .int line) (hplaced : ∀ d ∈ placed, ∃ m ≤ line, d.line = .int m) :
    (∃ s leading, Preferred line (listSpots tree) s leading) ∧
    ∀ s leading, Preferred line (listSpots tree) s leading →
      tree.walk[s.position]? = some s.node ∧
      (attach tree (placed ++ [c])).fault? = none ∧
      (attach tree (placed ++ [c])).tree.bare = tree.bare ∧
      (attach tree (placed ++ [c])).tree.walk.map (·.comments) =
        ((attach tree placed).tree.walk.map (·.comments)).modify s.position
          (· ++ [{ c with leading := leading }]) := by
  have hne : statementLists tree ≠ [] := by
    rw [← List.isEmpty_eq_false_iff]
    exact isEmpty_statementLists hstmts
  have hlists := isWhole_of_mem_statementLists hlocations
  obtain ⟨sorted, hsorted, hall, hwhole⟩ := schedule_concat hstmts hline hplaced
  have hfault : (placeAll (statementLists tree) sorted).2 = none :=
    (placeAll_of_place fun d hd => exists_place (hwhole d hd) hlists hne).1
  rw [statementLists_eq] at hne hlists
  refine ⟨exists_preferred line (by simpa using hne), fun s leading hs => ?_⟩
  obtain ⟨placement, hplacement, hposition, hleading⟩ :=
    place_of_preferred (fun list hlist => hlists _ (List.mem_map_of_mem hlist)) hs
  rw [← statementLists_eq, ← hline] at hplacement
  obtain ⟨hnone, htree⟩ := attach_concat hsorted hall hfault hplacement
  refine ⟨getElem?_of_preferred hs, hnone, bare_attach tree _, ?_⟩
  have hadd := Value.commentLists_addComment { c with leading := leading }
    (.node (attach tree placed).tree) s.position
  rw [← Node.node_addComment] at hadd
  rw [htree, hleading, hposition]
  exact hadd

def sampleBlock : Tree :=
  let called : Tree :=
    { Node.variableCall "b" with loc := some ⟨.int 3, .int 2, .int 4, .int 1⟩ }
  { Node.plain "BEGIN" [.node (.statements [called])] with
    loc := some ⟨.int 2, .int 0, .int 4, .int 3⟩ }

/-- A call on the first line, and a block that ends on the same line as the call in it. -/
def sampleNested : Tree :=
  let called : Tree :=
    { Node.variableCall "a" with loc := some ⟨.int 1, .int 0, .int 1, .int 1⟩ }
  .program [called, sampleBlock]

theorem attach_prefers_outermost :
    sampleNested.hasWholeLocations = true ∧
      Preferred 4 (listSpots sampleNested) ⟨4, sampleBlock⟩ false ∧
      (attach sampleNested [⟨"# top", false, .int 0⟩, ⟨"# end", false, .int 4⟩]).tree.walk.map
          (·.comments) =
        [[], [], [⟨"# top", true, .int 0⟩], [], [⟨"# end", false, .int 4⟩], [], [], []] := by
  have hpreferred : Preferred 4 (listSpots sampleNested) ⟨4, sampleBlock⟩ false := .behind rfl
  obtain ⟨-, hattach⟩ := attach_prefers sampleNested [⟨"# top", false, .int 0⟩]
    ⟨"# end", false, .int 4⟩ 4 (by decide) ⟨_, .tail _ (.head _), rfl⟩ rfl
    (List.forall_mem_singleton.mpr ⟨0, by decide, rfl⟩)
  obtain ⟨-, -, -, hcomments⟩ := hattach _ _ hpreferred
  exact ⟨by decide, hpreferred, hcomments.trans (by rfl)⟩

end Comments

end RubyPretty
