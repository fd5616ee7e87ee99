import RubyPretty.Layout.Machine
/-!
# The work left to the layout machine

Every step of the machine makes its weight smaller, so a run ends after at most as many steps as
the weight it starts with.
-/

namespace RubyPretty

mutual

/-- An upper bound on the steps that writing a document takes. -/
def Doc.weight : Doc → Nat
  | .empty | .text _ | .newline _ | .breakParent => 1
  | .seq ds => 1 + weightAll ds
  | .fill ds => 1 + ds.length + weightAll ds
  | .indent d | .align _ d | .group d _ _ | .root d => 1 + d.weight
  | .ifBreak b f _ => 1 + b.weight + f.weight
  | .suffix d => 2 + d.weight

def Doc.weightAll : List Doc → Nat
  | [] => 0
  | d :: ds => d.weight + weightAll ds

end

namespace Layout

def stackWeight : List Chunk → Nat
  | [] => 0
  | c :: cs => c.doc.weight + stackWeight cs

/-- A waiting suffix weighs one more than on the stack. -/
def suffixWeight : List Chunk → Nat
  | [] => 0
  | c :: cs => c.doc.weight + 1 + suffixWeight cs

def State.weight (s : State) : Nat := stackWeight s.stack + suffixWeight s.suffixes

@[simp] theorem stackWeight_nil : stackWeight [] = 0 := rfl

@[simp] theorem stackWeight_cons (c : Chunk) (cs : List Chunk) :
    stackWeight (c :: cs) = c.doc.weight + stackWeight cs := rfl

@[simp] theorem stackWeight_append (cs ds : List Chunk) :
    stackWeight (cs ++ ds) = stackWeight cs + stackWeight ds := by
  induction cs with
  | nil => simp
  | cons c cs ih => simp [ih]; omega

theorem stackWeight_withDoc (chunk : Chunk) (ds : List Doc) :
    stackWeight (ds.map chunk.withDoc) = Doc.weightAll ds := by
  induction ds with
  | nil => rfl
  | cons d ds ih => simp [ih, Doc.weightAll, Chunk.withDoc]

theorem stackWeight_filter (p : Chunk → Bool) (cs : List Chunk) :
    stackWeight (cs.filter fun c => !p c) + stackWeight (cs.filter p) = stackWeight cs := by
  induction cs with
  | nil => rfl
  | cons c cs ih => cases h : p c <;> simp [h] <;> omega

theorem suffixWeight_eq (cs : List Chunk) : suffixWeight cs = stackWeight cs + cs.length := by
  induction cs with
  | nil => rfl
  | cons c cs ih => simp [suffixWeight, ih]; omega

namespace State

@[simp] theorem weight_push (s : State) (cs : List Chunk) :
    (s.push cs).weight = stackWeight cs + s.weight := by
  simp [weight, push]; omega

theorem weight_flush (s : State) : s.flush.weight + s.suffixes.length = s.weight := by
  have h := stackWeight_filter (fun c => c.doc.hasForcedBreak) s.suffixes
  simp [weight, flush, suffixWeight_eq] at h ⊢
  omega

theorem weight_fillChunks (s : State) (page : Page) (chunk : Chunk) (items : List Doc) :
    stackWeight (s.fillChunks page chunk items) < (Doc.fill items).weight := by
  match items with
  | [] => simp [fillChunks, Doc.weight, Doc.weightAll]
  | [_] => simp [fillChunks, Doc.weight, Doc.weightAll]
  | [_, _] => simp [fillChunks, Doc.weight, Doc.weightAll]
  | _ :: _ :: _ :: _ =>
      simp [fillChunks, Doc.weight, Doc.weightAll, Chunk.withDoc]; omega

theorem weight_take (s : State) (page : Page) (chunk : Chunk) :
    (s.take page chunk).weight < chunk.doc.weight + s.weight := by
  obtain ⟨doc, indent, root, flat⟩ := chunk
  cases doc with
  | empty => simp [take, Doc.weight]
  | text t => simp [take, Doc.weight, write, weight]
  | newline b =>
      have hf := weight_flush (s.push [⟨.newline b, indent, root, flat⟩])
      simp only [take]
      split
      · simp [write, weight, Doc.weight]
      · split
        · next h =>
            have hlen : 0 < s.suffixes.length := by
              cases hs : s.suffixes with
              | nil => simp [hs] at h
              | cons => simp
            have hsame : (s.push [⟨.newline b, indent, root, flat⟩]).suffixes = s.suffixes :=
              rfl
            rw [hsame] at hf
            simp [Doc.weight] at hf ⊢
            omega
        · split <;> simp [endLiteral, endIndented, weight, Doc.weight]
  | breakParent => simp [take, Doc.weight]
  | seq ds => simp [take, Doc.weight, stackWeight_withDoc]
  | indent d => simp [take, Doc.weight]
  | align n d => simp [take, Doc.weight]
  | group d id broken =>
      cases id with
      | none => simp [take, Doc.weight]
      | some id =>
          have h : ∀ (s : State) (modes : Modes), { s with modes := modes }.weight = s.weight :=
            fun _ _ => rfl
          simp [take, Doc.weight, h]
  | ifBreak b f id =>
      simp only [take, weight_push, stackWeight_cons, stackWeight_nil, Doc.weight, Chunk.withDoc]
      split <;> omega
  | fill items =>
      have h := weight_fillChunks s page ⟨.fill items, indent, root, flat⟩ items
      simp only [take, weight_push]
      omega
  | suffix d => simp [take, weight, suffixWeight_eq, Doc.weight]; omega
  | root d => simp [take, Doc.weight]

theorem weight_step {page : Page} {s t : State} (h : s.step page = some t) :
    t.weight < s.weight := by
  unfold step at h
  split at h
  · next chunk rest hs =>
      have hw := weight_take { s with stack := rest } page chunk
      cases h
      simp only [weight, hs, stackWeight_cons] at hw ⊢
      omega
  · split at h
    · simp at h
    · next hs hne =>
        have hf := weight_flush s
        have hlen : 0 < s.suffixes.length := by
          cases hs' : s.suffixes with
          | nil => simp [hs'] at hne
          | cons => simp
        cases h
        omega

end State

end Layout

end RubyPretty
