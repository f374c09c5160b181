import Mathlib.Data.List.Basic

namespace DarqEval.Lib

/-!
# Readable codes

A code writes values as words over an alphabet.  It is *readable* at a value if the value's word
tells where it ends: whatever follows it, the value and the rest can be read off.  A code without
an end mark of its own, such as a numeral, is readable in front of *stop* symbols, which it does
not use.

* `Stops stop w` — the word is empty or starts with a stop symbol;
* `Readable stop dom enc a` — the word of `a` can be read in front of a stop, among those of `dom`;
* `Readable.of_not_stop`, `Readable.pair`, `Readable.bracketed`, `Readable.quoted` — numerals,
  pairs around a separator, bracketed lists, and quoted words;
* `Readable.injective` — a readable code loses nothing;
* `Gap` — a word with a gap, such as a bracketed list without one of its elements
  (`bracketed_eq_fill`).
-/

variable {α β σ : Type*} {stop stop' : σ → Prop}

/-- The word is empty or starts with a stop symbol. -/
def Stops (stop : σ → Prop) (w : List σ) : Prop := ∀ c ∈ w.head?, stop c

theorem stops_nil : Stops stop [] := by
  intro c hc
  cases hc

theorem stops_cons {c : σ} {w : List σ} : Stops stop (c :: w) ↔ stop c := by
  simp [Stops]

/-- In front of a stop, the word of `a` tells `a` and the rest, among the values of `dom`. -/
def Readable (stop : σ → Prop) (dom : α → Prop) (enc : α → List σ) (a : α) : Prop :=
  ∀ b, dom b → ∀ x y, Stops stop x → Stops stop y → enc a ++ x = enc b ++ y → a = b ∧ x = y

theorem Readable.injective {dom : α → Prop} {enc : α → List σ} {a b : α}
    (ha : Readable stop dom enc a) (hb : dom b) (h : enc a = enc b) : a = b := by
  refine (ha b hb [] [] stops_nil stops_nil ?_).1
  rw [h]

/-- A code that is readable in front of anything is so in front of stops. -/
theorem Readable.mono {dom : α → Prop} {enc : α → List σ} {a : α}
    (h : Readable stop' dom enc a) (hstop : ∀ c, stop c → stop' c) : Readable stop dom enc a := by
  intro b hb x y hx hy heq
  exact h b hb x y (fun c hc => hstop c (hx c hc)) (fun c hc => hstop c (hy c hc)) heq

/-! ### Words without stop symbols -/

/-- Where two words without stop symbols end, nothing but a stop can follow. -/
theorem append_inj_of_not_stop {u v x y : List σ} (hu : ∀ c ∈ u, ¬ stop c)
    (hv : ∀ c ∈ v, ¬ stop c) (hx : Stops stop x) (hy : Stops stop y) (h : u ++ x = v ++ y) :
    u = v ∧ x = y := by
  induction u generalizing v with
  | nil =>
    cases v with
    | nil => exact ⟨rfl, h⟩
    | cons c v =>
      rw [List.nil_append, List.cons_append] at h
      rw [h] at hx
      exact absurd (stops_cons.mp hx) (hv c List.mem_cons_self)
  | cons c u ih =>
    cases v with
    | nil =>
      rw [List.nil_append, List.cons_append] at h
      rw [← h] at hy
      exact absurd (stops_cons.mp hy) (hu c List.mem_cons_self)
    | cons d v =>
      obtain ⟨rfl, htail⟩ := List.cons.inj h
      have hu' : ∀ e ∈ u, ¬ stop e := fun e he => hu e (List.mem_cons_of_mem c he)
      have hv' : ∀ e ∈ v, ¬ stop e := fun e he => hv e (List.mem_cons_of_mem c he)
      obtain ⟨rfl, hxy⟩ := ih hu' hv' htail
      exact ⟨rfl, hxy⟩

/-- An injective code whose words have no stop symbols is readable. -/
theorem Readable.of_not_stop {dom : α → Prop} {enc : α → List σ} {a : α} (ha : dom a)
    (hinj : ∀ b, dom b → enc a = enc b → a = b) (hstop : ∀ b, dom b → ∀ c ∈ enc b, ¬ stop c) :
    Readable stop dom enc a := by
  intro b hb x y hx hy heq
  obtain ⟨hword, hxy⟩ := append_inj_of_not_stop (hstop a ha) (hstop b hb) hx hy heq
  exact ⟨hinj b hb hword, hxy⟩

/-- Decimal numerals are readable in front of anything but a digit. -/
theorem readable_repr {stop : Char → Prop} (hstop : ∀ c, stop c → c.isDigit = false) (n : Nat) :
    Readable stop (fun _ => True) (fun n : Nat => n.repr.toList) n := by
  refine Readable.of_not_stop trivial ?_ ?_
  · intro m _ h
    rw [Nat.toList_repr, Nat.toList_repr] at h
    rw [← Nat.ofDigitChars_ten_toDigits (n := n), h, Nat.ofDigitChars_ten_toDigits]
  · intro m _ c hc hstop'
    rw [Nat.toList_repr] at hc
    have hdigit := Nat.isDigit_of_mem_toDigits (by decide) (by decide) hc
    rw [hstop c hstop'] at hdigit
    cases hdigit

/-! ### Pairs and lists -/

/-- A pair around a separator is readable if its components are, the first one in front of the
    separator. -/
theorem Readable.pair {dom : α → Prop} {dom' : β → Prop} {enc : α → List σ} {enc' : β → List σ}
    {sep : σ} {a : α} {b : β} (hsep : stop' sep) (ha : Readable stop' dom enc a)
    (hb : Readable stop dom' enc' b) :
    Readable stop (fun p : α × β => dom p.1 ∧ dom' p.2) (fun p => enc p.1 ++ sep :: enc' p.2)
      (a, b) := by
  rintro ⟨c, d⟩ ⟨hc, hd⟩ x y hx hy heq
  simp only [List.append_assoc, List.cons_append] at heq
  obtain ⟨rfl, hrest⟩ := ha c hc _ _ (stops_cons.mpr hsep) (stops_cons.mpr hsep) heq
  obtain ⟨rfl, hxy⟩ := hb d hd x y hx hy (List.cons.inj hrest).2
  exact ⟨rfl, hxy⟩

/-- The words of a list, one after another, with a separator between them. -/
def separated (sep : σ) (enc : α → List σ) : List α → List σ
  | [] => []
  | a :: as => enc a ++ as.flatMap (fun b => sep :: enc b)

/-- The words of a list with separators, in brackets. -/
def bracketed (opening sep closing : σ) (enc : α → List σ) (as : List α) : List σ :=
  opening :: (separated sep enc as ++ [closing])

/-- Words given as a list are those of the listed values. -/
theorem bracketed_map (opening sep closing : σ) (enc : α → List σ) (as : List α) :
    bracketed opening sep closing id (as.map enc) = bracketed opening sep closing enc as := by
  unfold bracketed
  cases as with
  | nil => rfl
  | cons a as =>
    rw [List.map_cons, separated, separated, List.flatMap_map]
    rfl

section Bracketed

variable {dom : α → Prop} {enc : α → List σ} {opening sep closing : σ}

private theorem stops_flatMap (hsep : stop sep) (hclosing : stop closing) (as : List α)
    (x : List σ) : Stops stop (as.flatMap (fun b => sep :: enc b) ++ closing :: x) := by
  cases as with
  | nil => exact stops_cons.mpr hclosing
  | cons a as =>
    rw [List.flatMap_cons, List.cons_append, List.cons_append]
    exact stops_cons.mpr hsep

/-- Behind the first element, each separator announces another one. -/
private theorem flatMap_inj (hsep : stop sep) (hclosing : stop closing) (hne : sep ≠ closing)
    {as bs : List α} (has : ∀ a ∈ as, Readable stop dom enc a) (hbs : ∀ b ∈ bs, dom b)
    {x y : List σ} (h : as.flatMap (fun b => sep :: enc b) ++ closing :: x =
      bs.flatMap (fun b => sep :: enc b) ++ closing :: y) : as = bs ∧ x = y := by
  induction as generalizing bs with
  | nil =>
    cases bs with
    | nil => exact ⟨rfl, (List.cons.inj h).2⟩
    | cons b bs => exact absurd (List.cons.inj h).1.symm hne
  | cons a as ih =>
    cases bs with
    | nil => exact absurd (List.cons.inj h).1 hne
    | cons b bs =>
      simp only [List.flatMap_cons, List.cons_append, List.append_assoc] at h
      obtain ⟨rfl, hrest⟩ := has a List.mem_cons_self b (hbs b List.mem_cons_self) _ _
        (stops_flatMap hsep hclosing as x) (stops_flatMap hsep hclosing bs y) (List.cons.inj h).2
      obtain ⟨rfl, hxy⟩ := ih (fun a ha => has a (List.mem_cons_of_mem _ ha))
        (fun b hb => hbs b (List.mem_cons_of_mem _ hb)) hrest
      exact ⟨rfl, hxy⟩

/-- A bracketed list is readable if its elements are, in front of the separator and the closing
    bracket, and no element starts like the latter. -/
theorem Readable.bracketed (hsep : stop sep) (hclosing : stop closing) (hne : sep ≠ closing)
    (hstart : ∀ b, dom b → ∃ c w, enc b = c :: w ∧ c ≠ closing) {as : List α}
    (hdom : ∀ a ∈ as, dom a) (has : ∀ a ∈ as, Readable stop dom enc a) :
    Readable stop' (fun bs => ∀ b ∈ bs, dom b) (Lib.bracketed opening sep closing enc) as := by
  -- the word of a nonempty list is told from that of the empty one by its first symbol
  have hcons : ∀ (a : α) (as : List α) (x y : List σ), dom a →
      enc a ++ (as.flatMap (fun b => sep :: enc b) ++ closing :: x) ≠ closing :: y := by
    intro a as x y ha heq
    obtain ⟨c, w, hword, hc⟩ := hstart a ha
    rw [hword, List.cons_append] at heq
    exact hc (List.cons.inj heq).1
  intro bs hbs x y _ _ heq
  unfold Lib.bracketed at heq
  rw [List.cons_append, List.cons_append, List.append_assoc, List.append_assoc] at heq
  have hwords := (List.cons.inj heq).2
  cases as with
  | nil =>
    cases bs with
    | nil => exact ⟨rfl, (List.cons.inj hwords).2⟩
    | cons b bs =>
      rw [separated, separated, List.append_assoc] at hwords
      exact absurd hwords.symm (hcons b bs y x (hbs b List.mem_cons_self))
  | cons a as =>
    cases bs with
    | nil =>
      rw [separated, separated, List.append_assoc] at hwords
      exact absurd hwords (hcons a as x y (hdom a List.mem_cons_self))
    | cons b bs =>
      rw [separated, separated, List.append_assoc, List.append_assoc] at hwords
      obtain ⟨rfl, hrest⟩ := has a List.mem_cons_self b (hbs b List.mem_cons_self) _ _
        (stops_flatMap hsep hclosing as x) (stops_flatMap hsep hclosing bs y) hwords
      obtain ⟨rfl, hxy⟩ := flatMap_inj hsep hclosing hne
        (fun a ha => has a (List.mem_cons_of_mem _ ha))
        (fun b hb => hbs b (List.mem_cons_of_mem _ hb)) hrest
      exact ⟨rfl, hxy⟩

end Bracketed

/-! ### Words with a gap -/

/-- A word with a gap in it: what stands before the gap, and what stands after it. -/
structure Gap (σ : Type*) where
  before : List σ
  after : List σ

namespace Gap

/-- The gap filled with a word. -/
def fill (gap : Gap σ) (w : List σ) : List σ := gap.before ++ w ++ gap.after

/-- Nothing but a gap. -/
def whole : Gap σ := ⟨[], []⟩

/-- The gap of `inner`, put into the gap of `outer`. -/
def within (inner outer : Gap σ) : Gap σ :=
  ⟨outer.before ++ inner.before, inner.after ++ outer.after⟩

@[simp] theorem fill_whole (w : List σ) : (whole : Gap σ).fill w = w := by
  simp [fill, whole]

@[simp] theorem fill_within (inner outer : Gap σ) (w : List σ) :
    (inner.within outer).fill w = outer.fill (inner.fill w) := by
  simp [fill, within]

/-- A bracketed list with a gap for the element between two lists. -/
def bracketed (opening sep closing : σ) (enc : α → List σ) (pre post : List α) : Gap σ :=
  ⟨opening :: pre.flatMap (fun a => enc a ++ [sep]),
    post.flatMap (fun a => sep :: enc a) ++ [closing]⟩

end Gap

theorem separated_append (sep : σ) (enc : α → List σ) (pre : List α) (a : α) (post : List α) :
    separated sep enc (pre ++ a :: post) =
      pre.flatMap (fun b => enc b ++ [sep]) ++ enc a ++ post.flatMap (fun b => sep :: enc b) := by
  induction pre with
  | nil => rfl
  | cons b pre ih =>
    have htail : (pre ++ a :: post).flatMap (fun b => sep :: enc b) =
        sep :: separated sep enc (pre ++ a :: post) := by
      cases pre with
      | nil => rfl
      | cons c pre => rfl
    rw [List.cons_append, separated, htail, ih, List.flatMap_cons]
    simp only [List.append_assoc, List.cons_append, List.nil_append]

/-- A bracketed list is the list without one of its elements, filled with that element. -/
theorem bracketed_eq_fill (opening sep closing : σ) (enc : α → List σ) (pre : List α) (a : α)
    (post : List α) :
    bracketed opening sep closing enc (pre ++ a :: post) =
      (Gap.bracketed opening sep closing enc pre post).fill (enc a) := by
  rw [bracketed, separated_append, Gap.fill, Gap.bracketed]
  simp only [List.append_assoc, List.cons_append]

/-! ### Quoted words -/

section Quoted

variable [DecidableEq σ] {quote escape : σ}

/-- A symbol between quotes, behind an escape if it is a quote or an escape itself. -/
def escaped (quote escape c : σ) : List σ := if c = quote ∨ c = escape then [escape, c] else [c]

/-- A word between quotes. -/
def quoted (quote escape : σ) (w : List σ) : List σ :=
  quote :: (w.flatMap (escaped quote escape) ++ [quote])

theorem escaped_cases (quote escape c : σ) :
    ((c = quote ∨ c = escape) ∧ escaped quote escape c = [escape, c]) ∨
      (c ≠ quote ∧ c ≠ escape ∧ escaped quote escape c = [c]) := by
  unfold escaped
  by_cases h : c = quote ∨ c = escape
  · exact Or.inl ⟨h, if_pos h⟩
  · rw [not_or] at h
    exact Or.inr ⟨h.1, h.2, if_neg (not_or.mpr h)⟩

/-- What stands behind an escape is a symbol, and no other quote is one. -/
private theorem flatMap_escaped_inj (hne : quote ≠ escape) {v w x y : List σ}
    (h : v.flatMap (escaped quote escape) ++ quote :: x =
      w.flatMap (escaped quote escape) ++ quote :: y) : v = w ∧ x = y := by
  induction v generalizing w with
  | nil =>
    cases w with
    | nil => exact ⟨rfl, (List.cons.inj h).2⟩
    | cons d w =>
      rw [List.flatMap_cons] at h
      obtain ⟨-, hd⟩ | ⟨hquote, -, hd⟩ := escaped_cases quote escape d
      · rw [hd] at h
        exact absurd (List.cons.inj h).1 hne
      · rw [hd] at h
        exact absurd (List.cons.inj h).1.symm hquote
  | cons c v ih =>
    rw [List.flatMap_cons, List.append_assoc] at h
    cases w with
    | nil =>
      obtain ⟨-, hc⟩ | ⟨hquote, -, hc⟩ := escaped_cases quote escape c
      · rw [hc] at h
        exact absurd (List.cons.inj h).1.symm hne
      · rw [hc] at h
        exact absurd (List.cons.inj h).1 hquote
    | cons d w =>
      rw [List.flatMap_cons, List.append_assoc] at h
      obtain ⟨-, hc⟩ | ⟨-, hescape, hc⟩ := escaped_cases quote escape c
      · obtain ⟨-, hd⟩ | ⟨-, hescape', hd⟩ := escaped_cases quote escape d
        · rw [hc, hd] at h
          obtain ⟨rfl, htail⟩ := List.cons.inj (List.cons.inj h).2
          obtain ⟨rfl, hxy⟩ := ih htail
          exact ⟨rfl, hxy⟩
        · rw [hc, hd] at h
          exact absurd (List.cons.inj h).1.symm hescape'
      · obtain ⟨-, hd⟩ | ⟨-, -, hd⟩ := escaped_cases quote escape d
        · rw [hc, hd] at h
          exact absurd (List.cons.inj h).1 hescape
        · rw [hc, hd] at h
          obtain ⟨rfl, htail⟩ := List.cons.inj h
          obtain ⟨rfl, hxy⟩ := ih htail
          exact ⟨rfl, hxy⟩

/-- Quoted words are readable in front of anything. -/
theorem Readable.quoted (hne : quote ≠ escape) (w : List σ) :
    Readable stop (fun _ => True) (Lib.quoted quote escape) w := by
  intro v _ x y _ _ h
  unfold Lib.quoted at h
  rw [List.cons_append, List.cons_append, List.append_assoc, List.append_assoc] at h
  exact flatMap_escaped_inj hne (List.cons.inj h).2

end Quoted

end DarqEval.Lib
