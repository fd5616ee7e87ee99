import RubyPretty.Proofs.Layout.Content
import RubyPretty.Proofs.Layout.FlatGroups
import RubyPretty.Proofs.Layout.Verbatim
/-!
# What the machine does not see

A step reads no more of the text than the end of its last line, so lines that have been written
before make no difference (`step_after`). Of the stack below the next chunk it reads what a
look-ahead sees, so two stacks that look the same do not make a difference either
(`exists_reaches_atop`).
-/

namespace RubyPretty.Layout.State

variable {page : Page} {s : State} {before : List Char}

/-! ## Lines above -/

/-- The machine with a text written before all that it has written. -/
def after (s : State) (before : List Char) : State := { s with out := s.out ++ before }

/-- Nothing at the end of a text can be taken back as a blank. -/
def IsClosed (before : List Char) : Prop := ∀ c ∈ before.head?, isTrailingBlank c = false

theorem after_after (s : State) (xs ys : List Char) :
    (s.after xs).after ys = s.after (xs ++ ys) := by
  rw [after, after, List.append_assoc]
  rfl

theorem isClosed_append {xs ys : List Char} (hxs : IsClosed xs) (hys : IsClosed ys) :
    IsClosed (xs ++ ys) := by
  cases xs with
  | nil => exact hys
  | cons x xs => exact hxs

theorem dropWhile_append_of_isClosed (h : IsClosed before) (above : List Char) :
    (above ++ before).dropWhile isTrailingBlank = above.dropWhile isTrailingBlank ++ before := by
  cases before with
  | nil => rw [List.append_nil, List.append_nil]
  | cons c before => exact dropWhile_append_cons (h c rfl) above before

theorem drop_append_of_padded (hpad : s.Padded) (before : List Char) :
    (s.out ++ before).drop (s.padding.getD 0) = s.out.drop (s.padding.getD 0) ++ before := by
  cases hn : s.padding with
  | none => rfl
  | some n =>
      obtain ⟨above, hout⟩ := hpad n hn
      refine List.drop_append_of_le_length ?_
      rw [hout, List.length_append, List.length_replicate]
      exact Nat.le_add_right _ _

theorem take_after (hpad : s.Padded) (h : IsClosed before) (page : Page) (chunk : Chunk) :
    (s.after before).take page chunk = (s.take page chunk).after before := by
  have hwrite (x : String) : (s.after before).write x = (s.write x).after before := by
    simp only [after, write, List.append_assoc]
  obtain ⟨doc, indent, root, flat⟩ := chunk
  cases doc with
  | text x => exact hwrite x
  | newline b =>
      have hliteral : (s.after before).endLiteral ⟨.newline b, indent, root, flat⟩ =
          (s.endLiteral ⟨.newline b, indent, root, flat⟩).after before := by
        simp only [after, endLiteral, drop_append_of_padded hpad, List.append_assoc,
          List.cons_append]
      have hindented : (s.after before).endIndented ⟨.newline b, indent, root, flat⟩ =
          (s.endIndented ⟨.newline b, indent, root, flat⟩).after before := by
        simp only [after, endIndented, dropWhile_append_of_isClosed h, List.append_assoc,
          List.cons_append]
      simp only [take]
      split
      · exact hwrite b.flat
      · show (if !s.suffixes.isEmpty then _ else _) = _
        split
        · rfl
        · split
          · exact hliteral
          · exact hindented
  | group d id broken =>
      rw [take_group _ page _ rfl, take_group _ page _ rfl]
      rfl
  | _ => rfl

theorem step_after (hpad : s.Padded) (h : IsClosed before) (page : Page) :
    (s.after before).step page = (s.step page).map (·.after before) := by
  cases hstack : s.stack with
  | cons chunk rest =>
      have hstep : (s.after before).step page =
          some (({ s with stack := rest }.after before).take page chunk) := by
        rw [step, after, hstack]
        rfl
      rw [hstep, take_after (s := { s with stack := rest }) hpad h, step, hstack]
      rfl
  | nil =>
      by_cases hnone : s.suffixes = []
      · simp [step, after, hstack, hnone]
      · simp [step, after, hstack, hnone, flush]

theorem reaches_after (h : IsClosed before) {t : State} (hreaches : Reaches page s t)
    (hpad : s.Padded) : Reaches page (s.after before) (t.after before) := by
  induction hreaches using Relation.ReflTransGen.head_induction_on with
  | refl => exact .refl
  | head hstep _ ih =>
      refine .head ?_ (ih (padded_step hstep hpad))
      rw [step_after hpad h, hstep]
      rfl

/-! ## The stack below -/

/-- The machine with further chunks below its stack. -/
def atop (s : State) (rest : List Chunk) : State := { s with stack := s.stack ++ rest }

theorem atop_of_stack (h : s.stack = []) (rest : List Chunk) :
    s.atop rest = s.push rest := by
  rw [atop, push, h, List.nil_append, List.append_nil]

/-- A look-ahead finds the same in both stacks. -/
def LookAlike (rest rest' : List Chunk) : Prop :=
  ∀ modes room, scanChunks modes room rest = scanChunks modes room rest'

theorem scanChunks_append (modes : Modes) (room : Nat) (cs ds : List Chunk) :
    scanChunks modes room (cs ++ ds) =
      (scanChunks modes room cs).andThen fun room => scanChunks modes room ds := by
  induction cs generalizing room with
  | nil => rfl
  | cons c cs ih =>
      rw [List.cons_append, scanChunks_cons, scanChunks_cons, Scan.andThen_assoc]
      exact Scan.andThen_congr _ ih

variable {rest rest' : List Chunk}

theorem lookAlike_append {cs : List Chunk}
    (h : ∀ c ∈ cs, ∀ modes room, scan modes c.flat room c.doc = .left room) (rest : List Chunk) :
    LookAlike rest (cs ++ rest) := by
  intro modes room
  induction cs generalizing room with
  | nil => rfl
  | cons c cs ih =>
      obtain ⟨hc, hcs⟩ := List.forall_mem_cons.mp h
      rw [List.cons_append, scanChunks_cons, hc]
      exact ih hcs room

theorem groupFlat_atop (h : LookAlike rest rest') (s : State) (page : Page) (chunk : Chunk)
    (d : Doc) (broken : Bool) :
    (s.atop rest).groupFlat page chunk d broken = (s.atop rest').groupFlat page chunk d broken := by
  have hfits (cs : List Chunk) :
      s.fits page (cs ++ rest) = s.fits page (cs ++ rest') := by
    unfold fits Layout.fits
    rw [scanChunks_append, scanChunks_append, Scan.andThen_congr _ (h s.modes)]
  exact congrArg (fun fit => chunk.flat || (!broken && fit)) (hfits (_ :: s.stack))

theorem exists_take_atop (page : Page) (h : LookAlike rest rest') (hnone : s.suffixes = [])
    {chunk : Chunk} (hunheld : chunk.doc.isUnheld = true) :
    ∃ t : State, (s.atop rest).take page chunk = t.atop rest ∧
      (s.atop rest').take page chunk = t.atop rest' := by
  have hpush (cs : List Chunk) : ∃ t : State, (s.atop rest).push cs = t.atop rest ∧
      (s.atop rest').push cs = t.atop rest' := by
    refine ⟨s.push cs, ?_, ?_⟩ <;> simp only [atop, push, List.append_assoc]
  obtain ⟨doc, indent, root, flat⟩ := chunk
  cases doc with
  | empty | breakParent => exact ⟨s, rfl, rfl⟩
  | text x => exact ⟨s.write x, rfl, rfl⟩
  | newline b =>
      have hempty : (!s.suffixes.isEmpty) = false := by
        rw [hnone]
        rfl
      have hbreak (rest : List Chunk) : (s.atop rest).take page ⟨.newline b, indent, root, flat⟩ =
          (s.take page ⟨.newline b, indent, root, flat⟩).atop rest := by
        show (if flat && !b.hard then _ else if !s.suffixes.isEmpty then _ else if b.literal then _
          else _) = atop (if flat && !b.hard then _ else if !s.suffixes.isEmpty then _
            else if b.literal then _ else _) rest
        rw [hempty]
        cases flat && !b.hard <;> cases b.literal <;> rfl
      exact ⟨_, hbreak rest, hbreak rest'⟩
  | group d id broken =>
      have hdecided := groupFlat_atop h s page ⟨.group d id broken, indent, root, flat⟩ d broken
      rw [take_group _ page _ rfl, take_group _ page _ rfl, ← hdecided]
      generalize (s.atop rest).groupFlat page _ d broken = decided
      exact ⟨{ s with
        stack := ⟨d, indent, root, decided⟩ :: s.stack
        modes := s.modes.noting id decided }, rfl, rfl⟩
  | suffix d => cases hunheld
  | _ => exact hpush _

theorem holds_of_atop {p : Doc → Bool} (h : (s.atop rest).Holds p) : s.Holds p :=
  fun c hc => h c (hc.imp_left (List.mem_append_left rest))

/-- Above stacks that look alike the machine writes what it has on its own stack in the same way,
as long as nothing in it is held back. -/
theorem exists_reaches_atop (page : Page) (h : LookAlike rest rest') (s : State)
    (hnone : s.suffixes = []) (hunheld : (s.atop rest).Holds Doc.isUnheld) (hpad : s.Padded) :
    ∃ t : State, Reaches page (s.atop rest) (t.atop rest) ∧
      Reaches page (s.atop rest') (t.atop rest') ∧ t.stack = [] ∧ t.suffixes = [] ∧ t.Padded := by
  cases hstack : s.stack with
  | nil => exact ⟨s, .refl, .refl, hstack, hnone, hpad⟩
  | cons chunk below =>
      have hstep (rest : List Chunk) : (s.atop rest).step page =
          some (({ s with stack := below }.atop rest).take page chunk) := by
        rw [step, atop, hstack]
        rfl
      have hchunk : chunk.doc.isUnheld = true :=
        Doc.every_self (holds_of_atop hunheld chunk (.inl (hstack ▸ List.mem_cons_self)))
      obtain ⟨t, htake, htake'⟩ :=
        exists_take_atop (s := { s with stack := below }) page h hnone hchunk
      have hnext : (s.atop rest).step page = some (t.atop rest) :=
        (hstep rest).trans (congrArg some htake)
      have hnext' : (s.atop rest').step page = some (t.atop rest') :=
        (hstep rest').trans (congrArg some htake')
      have hfree : t.suffixes = [] := by
        have hsuffixes : (({ s with stack := below }.atop rest).take page chunk).suffixes = [] :=
          unheld_take hnone hchunk
        rwa [htake] at hsuffixes
      have hlighter : t.weight < s.weight := by
        have hweight := weight_step hnext
        simp only [weight, atop, stackWeight_append] at hweight ⊢
        omega
      have hpadded : (t.atop rest).Padded := padded_step hnext hpad
      obtain ⟨u, hreaches, hreaches', hdone⟩ := exists_reaches_atop page h t hfree
        (holds_step fillClosed_isUnheld hnext hunheld) hpadded
      exact ⟨u, .head hnext hreaches, .head hnext' hreaches', hdone⟩
termination_by s.weight

end RubyPretty.Layout.State
