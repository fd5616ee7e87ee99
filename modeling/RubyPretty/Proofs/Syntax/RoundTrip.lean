import Mathlib.Data.List.DropRight
import RubyPretty.Proofs.Printing.Yields
import RubyPretty.Proofs.Syntax.Schema
import RubyPretty.Syntax.Reading
/-!
# Trees are read back as they were written

Reading is free in what it takes: a body that is no list, a comment without its mark, line ends
behind a comment, members that are missing. Writing has one form for each tree, and reading takes
that form back to the tree (`Value.ofJson_toJson`), as long as no comment of the tree ends in a line
end. No tree that has been read has such a comment (`Value.isChomped_of_ofJson`).
-/

namespace RubyPretty

theorem Text.chomp_chomp (s : String) : chomp (chomp s) = chomp s := by
  rw [chomp, chomp, trimEndOf, trimEndOf, String.toList_ofList]
  exact congrArg String.ofList (List.rdropWhile_idempotent isLineEnd s.toList)

/-- Induction on JSON values, where the elements of an array and the members of an object are taken
as a whole. -/
@[elab_as_elim] theorem Json.induction {P : Json → Prop} (null : P .null)
    (bool : ∀ b, P (.bool b)) (int : ∀ n, P (.int n)) (real : ∀ r, P (.real r))
    (str : ∀ s, P (.str s)) (arr : ∀ vs, (∀ v ∈ vs, P v) → P (.arr vs))
    (obj : ∀ ms, (∀ m ∈ ms, P m.2) → P (.obj ms)) (json : Json) : P json := by
  refine @Json.rec P (fun vs => ∀ v ∈ vs, P v) (fun ms => ∀ m ∈ ms, P m.2) (fun m => P m.2) null
    bool int real str arr obj ?_ ?_ ?_ ?_ (fun _ _ h => h) json
  · exact List.forall_mem_nil _
  · exact fun _ _ hv hvs => List.forall_mem_cons.mpr ⟨hv, hvs⟩
  · exact List.forall_mem_nil _
  · exact fun _ _ hm hms => List.forall_mem_cons.mpr ⟨hm, hms⟩

/-! ## Comments -/

namespace Comment

/-- The text of a comment does not end in a line end. -/
def isChomped (c : Comment) : Bool := Text.chomp c.text == c.text

theorem isChomped_of_ofJson {json : Json} {c : Comment} (h : ofJson json = .ok c) :
    c.isChomped = true := by
  cases json with
  | obj ms =>
      obtain ⟨text, -, h⟩ := Except.bind_eq_ok.mp h
      obtain rfl := Except.pure_eq_ok.mp h
      exact beq_iff_eq.mpr (Text.chomp_chomp text)
  | _ => cases h

theorem ofJson_toJson {c : Comment} (h : c.isChomped = true) : ofJson c.toJson = .ok c := by
  have htext : Text.chomp c.text = c.text := beq_iff_eq.mp h
  show Except.ok (⟨Text.chomp c.text, c.leading, c.line⟩ : Comment) = .ok c
  rw [htext]

end Comment

theorem isChomped_of_commentsOfJson {json : Json} {cs : List Comment}
    (h : commentsOfJson json = .ok cs) : cs.all Comment.isChomped = true := by
  obtain ⟨items, -, hcs⟩ := Except.bind_eq_ok.mp h
  have hall := Except.mapM_eq_ok hcs
  clear h hcs
  induction hall with
  | nil => rfl
  | cons hc _ ih => rw [List.all_cons, Comment.isChomped_of_ofJson hc, ih]; rfl

theorem commentsOfJson_toJson {cs : List Comment} (h : cs.all Comment.isChomped = true)
    (hne : cs ≠ []) : commentsOfJson (.arr (cs.map Comment.toJson)) = .ok cs := by
  have hitems : commentItems (.arr (cs.map Comment.toJson)) = .ok (cs.map Comment.toJson) := by
    cases cs with
    | nil => exact absurd rfl hne
    | cons c cs => rfl
  rw [commentsOfJson, hitems]
  show (cs.map Comment.toJson).mapM Comment.ofJson = .ok cs
  clear hitems hne
  induction cs with
  | nil => rfl
  | cons c cs ih =>
      rw [List.all_cons, Bool.and_eq_true] at h
      rw [List.map_cons, List.mapM_cons, Comment.ofJson_toJson h.1, ih h.2]
      rfl

/-! ## The members of a written node -/

section Members

variable (tag : String) (body : Json) (comments : List Comment) (loc : Option Span)

def nodeMembers : List (String × Json) :=
  ("type", .str tag) :: ("body", body) :: attachments comments loc

theorem get_type : (Json.obj (nodeMembers tag body comments loc)).get "type" = .str tag := rfl

theorem get_comments :
    (Json.obj (nodeMembers tag body comments loc)).get "comments" =
      if comments.isEmpty then .null else .arr (comments.map Comment.toJson) := by
  cases comments with
  | nil => cases loc <;> rfl
  | cons c cs => rfl

theorem ofJson_loc :
    Span.ofJson tag (.obj (nodeMembers tag body comments loc)) = .ok loc := by
  cases comments <;> cases loc <;> rfl

end Members

/-! ## Values -/

namespace Value

mutual

/-- No comment of a node in the value ends in a line end. -/
def isChomped : Value → Bool
  | .node ⟨_, body, comments, _⟩ => comments.all Comment.isChomped && areChomped body
  | .list vs => areChomped vs
  | _ => true

def areChomped : List Value → Bool
  | [] => true
  | v :: vs => isChomped v && areChomped vs

end

theorem areChomped_iff {vs : List Value} :
    areChomped vs = true ↔ ∀ v ∈ vs, v.isChomped = true := by
  induction vs with
  | nil => exact ⟨fun _ => List.forall_mem_nil _, fun _ => rfl⟩
  | cons v vs ih => rw [areChomped, Bool.and_eq_true, ih, List.forall_mem_cons]

theorem ofJsonAll_eq (js : List Json) : ofJsonAll js = js.mapM ofJson := by
  induction js with
  | nil => rfl
  | cons j js ih => rw [ofJsonAll, ih, List.mapM_cons]

theorem isChomped_of_bodyOfJson {ms : List (String × Json)}
    (hms : ∀ m ∈ ms, ∀ v, ofJson m.2 = .ok v → v.isChomped = true) {vs : List Value}
    (h : bodyOfJson ms = .ok vs) : areChomped vs = true := by
  induction ms with
  | nil =>
      cases h
      rfl
  | cons m ms ih =>
      obtain ⟨key, json⟩ := m
      obtain ⟨hm, hms⟩ := List.forall_mem_cons.mp hms
      unfold bodyOfJson at h
      split at h
      · split at h
        · next js =>
            -- a list of values is read like the body that it is
            have hlist : ofJson (.arr js) = .ok (.list vs) := by rw [ofJson, h]; rfl
            exact hm _ hlist
        · obtain ⟨v, hv, h⟩ := Except.bind_eq_ok.mp h
          obtain rfl := Except.pure_eq_ok.mp h
          exact areChomped_iff.mpr (List.forall_mem_singleton.mpr (hm v hv))
      · exact ih hms h

theorem isChomped_of_ofJson {json : Json} {v : Value} (h : ofJson json = .ok v) :
    v.isChomped = true := by
  induction json using Json.induction generalizing v with
  | null | bool | int | real | str =>
      cases h
      rfl
  | arr js ih =>
      rw [ofJson, ofJsonAll_eq] at h
      obtain ⟨vs, hvs, hlist⟩ := Except.bind_eq_ok.mp h
      obtain rfl := Except.pure_eq_ok.mp hlist
      have hall := Except.mapM_eq_ok hvs
      clear h hvs hlist
      show areChomped vs = true
      induction hall with
      | nil => rfl
      | cons hv _ ihs =>
          obtain ⟨hj, hjs⟩ := List.forall_mem_cons.mp ih
          rw [areChomped, hj hv, ihs hjs]
          rfl
  | obj ms ih =>
      rw [ofJson] at h
      split at h
      · obtain ⟨loc, -, h⟩ := Except.bind_eq_ok.mp h
        obtain ⟨body, hbody, h⟩ := Except.bind_eq_ok.mp h
        obtain ⟨comments, hcomments, h⟩ := Except.bind_eq_ok.mp h
        obtain rfl := Except.pure_eq_ok.mp h
        rw [isChomped, isChomped_of_commentsOfJson hcomments,
          isChomped_of_bodyOfJson (fun m hm _ => ih m hm) hbody]
        rfl
      · cases h

/-- What has been written is read back. -/
theorem ofJson_toJson {v : Value} (h : v.isChomped = true) : ofJson v.toJson = .ok v := by
  have hall {vs : List Value} (ih : ∀ v ∈ vs, v.isChomped = true → ofJson v.toJson = .ok v)
      (hvs : areChomped vs = true) : ofJsonAll (toJsonAll vs) = .ok vs := by
    induction vs with
    | nil => rfl
    | cons v vs ihs =>
        obtain ⟨hv, hrest⟩ := List.forall_mem_cons.mp ih
        rw [areChomped, Bool.and_eq_true] at hvs
        rw [toJsonAll, ofJsonAll, hv hvs.1, ihs hrest hvs.2]
        rfl
  induction v using Value.induction with
  | null | bool | int | real | text => rfl
  | list vs ih => rw [toJson, ofJson, hall ih h]; rfl
  | node n ih =>
      obtain ⟨tag, body, comments, loc⟩ := n
      rw [isChomped, Bool.and_eq_true] at h
      have hcomments : commentsOfJson
          ((Json.obj (nodeMembers tag (.arr (toJsonAll body)) comments loc)).get "comments") =
            .ok comments := by
        rw [get_comments]
        split
        · next hnone => rw [List.isEmpty_iff.mp hnone]; rfl
        · next hsome =>
            exact commentsOfJson_toJson h.1 fun hnone => hsome (List.isEmpty_iff.mpr hnone)
      have hbody : bodyOfJson (nodeMembers tag (.arr (toJsonAll body)) comments loc) =
          .ok body := hall ih h.2
      show ofJson (.obj (nodeMembers tag (.arr (toJsonAll body)) comments loc)) = _
      rw [ofJson, get_type]
      simp only [ofJson_loc, hbody, hcomments]
      rfl

end Value

theorem Node.isChomped_of_ofJson {json : Json} {t : Tree} (h : Node.ofJson json = .ok t) :
    (Value.node t).isChomped = true := by
  cases json with
  | obj ms =>
      obtain ⟨v, hv, h⟩ := Except.bind_eq_ok.mp h
      split at h
      · obtain rfl := Except.pure_eq_ok.mp h
        exact Value.isChomped_of_ofJson hv
      · cases h
  | _ => cases h

/-- Writing is the inverse of reading on all that can be read: a tree that has been read from any
JSON value, in whatever form that came, is read back from its written form, so that form is written
again. -/
theorem Node.written_is_read_back (json : Json) (t : Tree) (h : Node.ofJson json = .ok t) :
    Node.ofJson t.toJson = .ok t ∧
      (Node.ofJson t.toJson).map Node.toJson = .ok t.toJson := by
  have hback : Node.ofJson t.toJson = .ok t := by
    have hvalue := Value.ofJson_toJson (isChomped_of_ofJson h)
    obtain ⟨tag, body, comments, loc⟩ := t
    rw [Value.toJson] at hvalue
    rw [Node.toJson, Value.toJson, Node.ofJson, hvalue]
    rfl
  rw [hback]
  exact ⟨rfl, rfl⟩

/-- A node in the body's place, a body left out, lists in lists, comments in both forms with line
ends behind them, and a span of odd coordinates. -/
def sampleJson : Json :=
  .obj [("loc", .arr [.int 1, .null, .str "a", .real .nan]), ("type", .str "program"),
    ("comments", .arr [.obj [("value", .str " b\r\n"), ("line", .int 2)],
      .obj [("leading", .int 1), ("text", .str "\n"), ("value", .bool true)]]),
    ("body", .obj [("type", .str "params"), ("comments", .null), ("size", .int 7),
      ("body", .arr [.arr [.obj [("type", .str "@ident"), ("body", .str "c")], .arr []],
        .obj [("type", .str "zsuper")], .null])])]

theorem Node.written_is_read_back_sample :
    Node.ofJson sampleJson =
        .ok ⟨"program", [.node ⟨"params",
          [.list [.node ⟨"@ident", [.text "c"], [], none⟩, .list []],
            .node ⟨"zsuper", [], [], none⟩, .null], [], none⟩],
          [⟨"# b", false, .int 2⟩, ⟨"", true, .null⟩],
          some ⟨.int 1, .null, .str "a", .real .nan⟩⟩ ∧
      ((Node.ofJson sampleJson).bind fun t => Node.ofJson t.toJson) = Node.ofJson sampleJson :=
  ⟨rfl, (Node.written_is_read_back sampleJson _ rfl).1⟩

end RubyPretty
