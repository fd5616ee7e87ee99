import Mathlib.Tactic.MkIffOfInductiveProp
import Mathlib.Tactic.Simproc.ExistsAndEq
import RubyPretty.Options.Settings
import RubyPretty.Proofs.Outcome
/-!
# Options of a loose mapping

Each member of a loose mapping sets one option at most, or it fails (`adds_cases`). Two members for
different options can change places (`agree_swap`), since at most one of them can fail: the quote is
the only option that is converted while it is read. All that is checked afterwards looks at each
option on its own, so the order of the members does not matter.
-/

namespace RubyPretty

namespace Settings

def field? (key : String) : Option String :=
  let name := (aliases.lookup key).getD key
  if name = "single_quote" then some "quote"
  else if names.contains name then some name
  else none

def given? (member : String × Json) : Option (String × Json) :=
  let name := (aliases.lookup member.1).getD member.1
  if name = "single_quote" then
    (boolean? member.2).map fun b => ("quote", .str (if b then Quote.single else .double).text)
  else if names.contains name then some (name, member.2)
  else none

def take (settings : Settings) (member : String × Json) : Except BadSetting Settings :=
  settings.addLoose member.1 member.2

theorem ofLoose_eq (members : List (String × Json)) : ofLoose members = members.foldlM take [] :=
  rfl

def adds (member : String × Json) : Except BadSetting Settings := take [] member

theorem take_eq (settings : Settings) (member : String × Json) :
    settings.take member = (adds member).map (· ++ settings) := by
  unfold adds take addLoose
  dsimp only
  split
  · cases member.2 <;> rfl
  · split
    · split <;> rfl
    · rfl

theorem adds_cases (member : String × Json) :
    (field? member.1 = none ∧ given? member = none ∧ adds member = .ok []) ∨
      (field? member.1 = some "quote" ∧ given? member = none ∧
        ∃ bad, adds member = .error bad) ∨
      ∃ name setting, field? member.1 = some name ∧ given? member = some (name, setting.value) ∧
        adds member = .ok [(name, setting)] := by
  obtain ⟨key, value⟩ := member
  unfold adds take addLoose field? given?
  dsimp only
  split
  · cases value with
    | bool b =>
        refine .inr (.inr ⟨_, _, rfl, ?_, rfl⟩)
        cases b <;> rfl
    | _ => exact .inr (.inl ⟨rfl, rfl, _, rfl⟩)
  · split
    · refine .inr (.inr ?_)
      split <;> exact ⟨_, _, rfl, rfl, rfl⟩
    · exact .inl ⟨rfl, rfl, rfl⟩

/-! ## Order of the members -/

/-- The same setting is found under each name. -/
def Alike (s t : Settings) : Prop := ∀ name, s.lookup name = t.lookup name

theorem Alike.append {s t : Settings} (h : Alike s t) (more : Settings) :
    Alike (more ++ s) (more ++ t) := by
  intro name
  rw [List.lookup_append, List.lookup_append, h name]

theorem Alike.swap {s t : Settings} (h : Alike s t) {k l : String} (hne : k ≠ l) (x y : Setting) :
    Alike ((k, x) :: (l, y) :: s) ((l, y) :: (k, x) :: t) := by
  intro name
  simp only [List.lookup_cons, h name]
  by_cases hk : name = k
  · have hl : (name == l) = false := by simpa [hk] using hne
    rw [hl]
  · have hk : (name == k) = false := by simpa using hk
    rw [hk]

/-- Reading fails in the same way, or gives settings that are alike. -/
inductive Agree : Except BadSetting Settings → Except BadSetting Settings → Prop
  | ok {s t : Settings} (h : Alike s t) : Agree (.ok s) (.ok t)
  | error (bad : BadSetting) : Agree (.error bad) (.error bad)

theorem Agree.bind {x y : Except BadSetting Settings} (hxy : Agree x y)
    {f g : Settings → Except BadSetting Settings} (hfg : ∀ s t, Alike s t → Agree (f s) (g t)) :
    Agree (x >>= f) (y >>= g) := by
  cases hxy with
  | ok h => exact hfg _ _ h
  | error bad => exact .error bad

theorem Agree.trans {x y z : Except BadSetting Settings} (hxy : Agree x y) (hyz : Agree y z) :
    Agree x z := by
  cases hxy with
  | ok h =>
      cases hyz with
      | ok h' => exact .ok fun name => (h name).trans (h' name)
  | error bad => exact hyz

theorem agree_take {s t : Settings} (h : Alike s t) (member : String × Json) :
    Agree (s.take member) (t.take member) := by
  rw [take_eq, take_eq]
  cases adds member with
  | error bad => exact .error bad
  | ok more => exact .ok (h.append more)

theorem agree_swap {s t : Settings} (h : Alike s t) {m n : String × Json}
    (hne : ∀ name, field? m.1 = some name → field? n.1 ≠ some name) :
    Agree (s.take m >>= (take · n)) (t.take n >>= (take · m)) := by
  simp only [take_eq]
  rcases adds_cases m with ⟨-, -, hm⟩ | ⟨hfield, -, bad, hm⟩ | ⟨k, x, hfield, -, hm⟩ <;> rw [hm]
  · cases adds n with
    | error bad => exact .error bad
    | ok more => exact .ok (h.append more)
  · rcases adds_cases n with ⟨-, -, hn⟩ | ⟨hfield', -⟩ | ⟨l, y, -, -, hn⟩
    · rw [hn]
      exact .error bad
    · -- both would be members for the quote
      exact absurd hfield' (hne _ hfield)
    · rw [hn]
      exact .error bad
  · rcases adds_cases n with ⟨-, -, hn⟩ | ⟨-, -, bad, hn⟩ | ⟨l, y, hfield', -, hn⟩ <;> rw [hn]
    · exact .ok (h.append [(k, x)])
    · exact .error bad
    · refine .ok (h.swap ?_ y x)
      rintro rfl
      exact hne _ hfield hfield'

def isKnown (member : String × Json) : Bool := (field? member.1).isSome

theorem take_of_isKnown_eq_false (settings : Settings) {member : String × Json}
    (h : isKnown member = false) : settings.take member = .ok settings := by
  rw [take_eq]
  rcases adds_cases member with ⟨-, -, hm⟩ | ⟨hfield, -⟩ | ⟨name, x, hfield, -⟩
  · rw [hm]
    rfl
  · simp [isKnown, hfield] at h
  · simp [isKnown, hfield] at h

theorem foldlM_take_filter (members : List (String × Json)) (settings : Settings) :
    members.foldlM take settings = (members.filter isKnown).foldlM take settings := by
  induction members generalizing settings with
  | nil => rfl
  | cons m rest ih =>
      cases hm : isKnown m with
      | false =>
          rw [List.filter_cons_of_neg (by simp [hm]), List.foldlM_cons,
            take_of_isKnown_eq_false settings hm]
          exact ih settings
      | true =>
          rw [List.filter_cons_of_pos hm, List.foldlM_cons, List.foldlM_cons]
          exact congrArg _ (funext ih)

theorem agree_foldlM {s t : Settings} (h : Alike s t) (members : List (String × Json)) :
    Agree (members.foldlM take s) (members.foldlM take t) := by
  induction members generalizing s t with
  | nil => exact .ok h
  | cons m rest ih =>
      rw [List.foldlM_cons, List.foldlM_cons]
      exact (agree_take h m).bind fun _ _ h => ih h

def fields (members : List (String × Json)) : List String :=
  members.filterMap fun member => field? member.1

theorem agree_of_perm {l r : List (String × Json)} (hperm : l.Perm r) (hl : (fields l).Nodup)
    {s t : Settings} (h : Alike s t) : Agree (l.foldlM take s) (r.foldlM take t) := by
  induction hperm generalizing s t with
  | nil => exact .ok h
  | cons m _ ih =>
      rw [List.foldlM_cons, List.foldlM_cons]
      have hl := hl.sublist ((List.sublist_cons_self m _).filterMap _)
      exact (agree_take h m).bind fun _ _ h => ih hl h
  | swap m n rest =>
      -- the members behind the two are taken over from settings that are alike only
      have hne : ∀ name, field? n.1 = some name → field? m.1 ≠ some name := by
        intro name hn hm
        simp [fields, hm, hn] at hl
      simp only [List.foldlM_cons, ← bind_assoc]
      exact (agree_swap h hne).bind fun _ _ h => agree_foldlM h rest
  | trans hlm _ ih ih' =>
      have hm := ((hlm.filterMap _).nodup_iff).mp hl
      exact (ih hl h).trans (ih' hm fun _ => rfl)

theorem fetch_congr {α : Type} {s t : Settings} (h : Alike s t) (name : String)
    (expected : Expected) (default : α) (read? : Json → Option α) :
    s.fetch name expected default read? = t.fetch name expected default read? := by
  unfold fetch
  rw [h name]

theorem options_congr {s t : Settings} (h : Alike s t) : s.options = t.options := by
  simp only [options, fetch_congr h]

theorem Agree.options_eq {x y : Except BadSetting Settings} (h : Agree x y) :
    x >>= options = y >>= options := by
  cases h with
  | ok h => exact options_congr h
  | error bad => rfl

/-! ## Values -/

/-- The values that settings hold. -/
def values (settings : Settings) : List (String × Json) :=
  settings.map fun entry => (entry.1, entry.2.value)

theorem lookup_values (settings : Settings) (name : String) :
    settings.values.lookup name = (settings.lookup name).map Setting.value := by
  induction settings with
  | nil => rfl
  | cons entry rest ih =>
      obtain ⟨k, x⟩ := entry
      simp only [values, List.map_cons, List.lookup_cons] at ih ⊢
      cases name == k with
      | false => exact ih
      | true => rfl

def isReadable (member : String × Json) : Bool := !isKnown member || (given? member).isSome

theorem take_of_isReadable (settings : Settings) {member : String × Json}
    (h : isReadable member = true) :
    ∃ s, settings.take member = .ok s ∧ s.values = (given? member).toList ++ settings.values := by
  rw [take_eq]
  rcases adds_cases member with ⟨-, hgiven, hm⟩ | ⟨hfield, hgiven, -⟩ | ⟨name, x, -, hgiven, hm⟩
  · exact ⟨settings, by rw [hm]; rfl, by rw [hgiven]; rfl⟩
  · simp [isReadable, isKnown, hfield, hgiven] at h
  · exact ⟨(name, x) :: settings, by rw [hm]; rfl, by rw [hgiven]; rfl⟩

theorem take_of_isReadable_eq_false (settings : Settings) {member : String × Json}
    (h : isReadable member = false) : ∃ bad, settings.take member = .error bad := by
  rw [take_eq]
  rcases adds_cases member with ⟨hfield, -⟩ | ⟨-, -, bad, hm⟩ | ⟨name, x, -, hgiven, -⟩
  · simp [isReadable, isKnown, hfield] at h
  · exact ⟨bad, by rw [hm]; rfl⟩
  · simp [isReadable, hgiven] at h

theorem foldlM_take_of_isReadable {members : List (String × Json)}
    (h : members.all isReadable = true) (settings : Settings) :
    ∃ s, members.foldlM take settings = .ok s ∧
      s.values = (members.filterMap given?).reverse ++ settings.values := by
  induction members generalizing settings with
  | nil => exact ⟨settings, rfl, rfl⟩
  | cons m rest ih =>
      rw [List.all_cons, Bool.and_eq_true] at h
      obtain ⟨t, ht, hvalues⟩ := take_of_isReadable settings h.1
      obtain ⟨s, hs, hrest⟩ := ih h.2 t
      refine ⟨s, by rw [List.foldlM_cons, ht]; exact hs, ?_⟩
      rw [hrest, hvalues]
      cases hm : given? m <;> simp [hm]

theorem all_isReadable_of_foldlM {members : List (String × Json)} {settings s : Settings}
    (h : members.foldlM take settings = .ok s) : members.all isReadable = true := by
  induction members generalizing settings with
  | nil => rfl
  | cons m rest ih =>
      rw [List.foldlM_cons] at h
      cases hm : isReadable m with
      | false =>
          obtain ⟨bad, hbad⟩ := take_of_isReadable_eq_false settings hm
          rw [hbad] at h
          cases h
      | true =>
          obtain ⟨t, ht, -⟩ := take_of_isReadable settings hm
          rw [ht] at h
          rw [List.all_cons, hm]
          exact ih h

/-! ## Checked options -/

theorem positive?_eq_some {v : Json} {n : Nat} :
    positive? v = some n ↔ 0 < n ∧ v = .int n := by
  cases v with
  | int i =>
      simp only [positive?, Json.int.injEq]
      split <;> simp <;> omega
  | _ => simp [positive?]

theorem boolean?_eq_some {v : Json} {b : Bool} : boolean? v = some b ↔ v = .bool b := by
  cases v <;> simp [boolean?]

theorem quote?_eq_some {v : Json} {q : Quote} : quote? v = some q ↔ v = .str q.text := by
  unfold quote?
  split <;> cases q <;> simp_all [Quote.text]

theorem trailingComma?_eq_some {v : Json} {t : TrailingComma} :
    trailingComma? v = some t ↔ v = .str t.text := by
  unfold trailingComma?
  split <;> cases t <;> simp_all [TrailingComma.text]

theorem mapM_eq_some_iff {α β : Type} {f : α → Option β} {g : β → α}
    (h : ∀ a b, f a = some b ↔ a = g b) {l : List α} {r : List β} :
    l.mapM f = some r ↔ l = r.map g := by
  induction l generalizing r with
  | nil => cases r <;> simp
  | cons a l ih =>
      rw [List.mapM_cons]
      cases r <;> simp [Option.bind_eq_some_iff, h, ih]

theorem keyNames?_eq_some {v : Json} {keys : List String} :
    keyNames? v = some keys ↔ v = .arr (keys.map .str) := by
  cases v with
  | arr vs =>
      simp only [keyNames?, Json.arr.injEq]
      refine mapM_eq_some_iff fun a b => ?_
      cases a <;> simp [Json.str?]
  | _ => simp [keyNames?]

theorem languages?_eq_some {v : Json} {languages : List (String × String)} :
    languages? v = some languages ↔ v = .obj (languages.map fun l => (l.1, .str l.2)) := by
  cases v with
  | obj ms =>
      simp only [languages?, Json.obj.injEq]
      refine mapM_eq_some_iff fun a b => ?_
      obtain ⟨k, v⟩ := a
      obtain ⟨k', v'⟩ := b
      cases v <;> simp [Json.str?]
  | _ => simp [languages?]

/-- A setting is read back from the form in which an option is given. -/
theorem fetch_eq_ok {α : Type} {read? : Json → Option α} {valid : α → Prop} {given : α → Json}
    (hread : ∀ {v a}, read? v = some a ↔ valid a ∧ v = given a) {default : α}
    (hdefault : valid default) (s : Settings) (name : String) (expected : Expected) (a : α) :
    s.fetch name expected default read? = .ok a ↔
      valid a ∧ given a = (s.values.lookup name).getD (given default) := by
  unfold fetch
  rw [lookup_values, eq_comm (a := given a)]
  cases s.lookup name with
  | none =>
      -- the default is what would be read from its own form
      have hd : read? (given default) = some default := hread.mpr ⟨hdefault, rfl⟩
      simp only [Option.map_none, Option.getD_none, Except.ok.injEq, ← hread, hd,
        Option.some.injEq]
  | some x =>
      simp only [Option.map_some, Option.getD_some, ← hread]
      cases read? x.value <;> simp

theorem fetch_eq_ok_of_forall {α : Type} {read? : Json → Option α} {given : α → Json}
    (hread : ∀ {v a}, read? v = some a ↔ v = given a) (s : Settings) (name : String)
    (expected : Expected) (default a : α) :
    s.fetch name expected default read? = .ok a ↔
      given a = (s.values.lookup name).getD (given default) := by
  have hread' : ∀ {v a}, read? v = some a ↔ True ∧ v = given a := by
    intro v a
    rw [true_and, hread]
  rw [fetch_eq_ok hread' trivial, true_and]

end Settings

namespace Options

def members (o : Options) : List (String × Json) :=
  [("print_width", .int o.printWidth), ("tab_width", .int o.tabWidth),
    ("modifier", .bool o.modifier), ("inline_conditionals", .bool o.inlineConditionals),
    ("array_literal", .bool o.arrayLiteral), ("hash_label", .bool o.hashLabel),
    ("to_proc", .bool o.toProc), ("to_proc_guarded_keys", .arr (o.guardedKeys.map .str)),
    ("quote", .str o.quote.text), ("trailing_comma", .str o.trailingComma.text),
    ("chain_threshold", .int o.chainThreshold),
    ("signature_chain_threshold", .int o.signatureChainThreshold),
    ("embedded_languages", .obj (o.languages.map fun l => (l.1, .str l.2))),
    ("embedded_fallback", .bool o.embeddedFallback)]

/-- Widths and thresholds are positive, and a signature does not raise the threshold. -/
@[mk_iff]
structure IsValid (o : Options) : Prop where
  printWidth : 0 < o.printWidth
  tabWidth : 0 < o.tabWidth
  chainThreshold : 0 < o.chainThreshold
  signatureChainThreshold : 0 < o.signatureChainThreshold
  signature_le_chain : o.signatureChainThreshold ≤ o.chainThreshold

/-- The members of the default options, with the values of a list in their place. -/
def overridden (values : List (String × Json)) : List (String × Json) :=
  default.members.map fun member => (member.1, (values.lookup member.1).getD member.2)

end Options

theorem Settings.options_eq_ok (s : Settings) (o : Options) :
    s.options = .ok o ↔ o.IsValid ∧ o.members = Options.overridden s.values := by
  cases o
  simp only [Options.isValid_iff, Options.members, Options.overridden, List.map_cons, List.map_nil,
    List.cons.injEq, Prod.mk.injEq, true_and, and_true]
  -- each setting gives the option of its name, whatever the order in which they are read
  simp (disch := decide) only [options, Except.bind_eq_ok, Except.throw_bind, Except.pure_eq_ok,
    ite_eq_iff, reduceCtorEq, and_false, false_or, gt_iff_lt, Nat.not_lt, Options.mk.injEq,
    existsAndEq, and_true, fetch_eq_ok positive?_eq_some, fetch_eq_ok_of_forall boolean?_eq_some,
    fetch_eq_ok_of_forall quote?_eq_some, fetch_eq_ok_of_forall trailingComma?_eq_some,
    fetch_eq_ok_of_forall keyNames?_eq_some, fetch_eq_ok_of_forall languages?_eq_some]
  constructor <;> intro h <;> simp only [h, and_self]

namespace Options

theorem ofLoose_eq_ok (members : List (String × Json)) (o : Options) :
    ofLoose members = .ok o ↔
      members.all Settings.isReadable = true ∧ o.IsValid ∧
        o.members = overridden (members.filterMap Settings.given?).reverse := by
  rw [ofLoose, Except.bind_eq_ok]
  constructor
  · rintro ⟨s, hs, ho⟩
    have hall := Settings.all_isReadable_of_foldlM hs
    obtain ⟨t, ht, hvalues⟩ := Settings.foldlM_take_of_isReadable hall []
    obtain rfl : s = t := Except.ok.inj (hs.symm.trans ht)
    rw [Settings.options_eq_ok, hvalues, Settings.values, List.map_nil, List.append_nil] at ho
    exact ⟨hall, ho⟩
  · rintro ⟨hall, ho⟩
    obtain ⟨s, hs, hvalues⟩ := Settings.foldlM_take_of_isReadable hall []
    refine ⟨s, hs, ?_⟩
    rw [Settings.options_eq_ok, hvalues, Settings.values, List.map_nil, List.append_nil]
    exact ho

/-- If no two members stand for the same option, neither their order nor members that stand for no
option matter, not even for the setting that is found bad. What is read is valid: it is the default
options, with each value that is given in its place. -/
theorem ofLoose_order_free_and_valid (members : List (String × Json)) :
    ((Settings.fields members).Nodup →
      ∀ others, (others.filter Settings.isKnown).Perm (members.filter Settings.isKnown) →
        ofLoose others = ofLoose members) ∧
    ∀ o, ofLoose members = .ok o ↔
      members.all Settings.isReadable = true ∧ o.IsValid ∧
        o.members = overridden (members.filterMap Settings.given?).reverse := by
  refine ⟨fun hnodup others hperm => ?_, ofLoose_eq_ok members⟩
  have hfields : (Settings.fields (others.filter Settings.isKnown)).Nodup :=
    (hperm.filterMap _).nodup_iff.mpr (hnodup.sublist (List.filter_sublist.filterMap _))
  apply Settings.Agree.options_eq
  rw [Settings.ofLoose_eq, Settings.ofLoose_eq, Settings.foldlM_take_filter,
    Settings.foldlM_take_filter members]
  exact Settings.agree_of_perm hperm hfields fun _ => rfl

/-- A width under the name that editors use, double quotes, a member for no option and two
thresholds. -/
def sampleMembers : List (String × Json) :=
  [("rubySingleQuote", .bool false), ("printWidth", .int 100), ("theme", .str "dark"),
    ("signature_chain_threshold", .int 4), ("chain_threshold", .int 4)]

theorem ofLoose_order_free_and_valid_sample :
    (Settings.fields sampleMembers).Nodup ∧
      ofLoose (sampleMembers.filter Settings.isKnown).reverse = ofLoose sampleMembers ∧
      ofLoose sampleMembers =
        .ok { default with
          quote := .double, printWidth := 100, signatureChainThreshold := 4,
          chainThreshold := 4 } := by
  have hnodup : (Settings.fields sampleMembers).Nodup := by decide
  obtain ⟨horder, hvalid⟩ := ofLoose_order_free_and_valid sampleMembers
  refine ⟨hnodup, horder hnodup _ ?_, (hvalid _).mpr ⟨by decide, ?_, ?_⟩⟩
  · rw [List.filter_reverse, List.filter_filter]
    simp only [Bool.and_self]
    exact List.reverse_perm _
  · constructor <;> decide
  · rfl

end Options

end RubyPretty
