import MaskedViews.Proofs.Template.Lifting

/-!
# Templates in parts

A template may be seen as a row of parts, in each of which only some tags may stand. If every tag
that means something lies inside one part where it may stand, the parts can be read one by one: the
tokens are divided at their ends, where no more than a text is divided (`exists_divided`).
-/

namespace MaskedViews

/-! ### Stretches in their places -/

/-- Stretches of text one after the other, each with the character at which it begins. -/
def placed {α : Type} (text : α → Text) (start : Nat) : List α → List (Nat × α)
  | [] => []
  | x :: xs => (start, x) :: placed text (start + (text x).length) xs

section Placed

variable {α : Type} {text : α → Text} {start : Nat} {xs : List α} {x : Nat × α}

theorem placed_append (start : Nat) (xs ys : List α) : placed text start (xs ++ ys) =
    placed text start xs ++ placed text (start + (xs.flatMap text).length) ys := by
  induction xs generalizing start with
  | nil => rfl
  | cons x xs ih => simp [placed, ih, Nat.add_assoc]

theorem mem_of_mem_placed (h : x ∈ placed text start xs) : x.2 ∈ xs := by
  induction xs generalizing start with
  | nil => cases h
  | cons y xs ih =>
    rcases List.mem_cons.1 h with rfl | h
    · exact List.mem_cons_self
    · exact List.mem_cons_of_mem y (ih h)

theorem exists_mem_placed {y : α} (h : y ∈ xs) (start : Nat) :
    ∃ n, (n, y) ∈ placed text start xs := by
  induction xs generalizing start with
  | nil => cases h
  | cons z xs ih =>
    rcases List.mem_cons.1 h with rfl | h
    · exact ⟨start, List.mem_cons_self⟩
    · obtain ⟨n, hn⟩ := ih h (start + (text z).length)
      exact ⟨n, List.mem_cons_of_mem _ hn⟩

/-- A stretch lies between the beginning and the end of them all. -/
theorem bounds_of_mem_placed (h : x ∈ placed text start xs) :
    start ≤ x.1 ∧ x.1 + (text x.2).length ≤ start + (xs.flatMap text).length := by
  induction xs generalizing start with
  | nil => cases h
  | cons y xs ih =>
    rw [List.flatMap_cons, List.length_append]
    rcases List.mem_cons.1 h with rfl | h
    · exact ⟨Nat.le_refl _, by simp only; omega⟩
    · have := ih h
      omega

end Placed

namespace Token

/-! ### Dividing tokens -/

/-- Whether no token is empty. -/
def Solid (ts : List Token) : Prop := ∀ t ∈ ts, t.source ≠ []

theorem solid_cons {t : Token} {ts : List Token} : Solid (t :: ts) ↔ t.source ≠ [] ∧ Solid ts :=
  List.forall_mem_cons

theorem solid_append {ts us : List Token} : Solid (ts ++ us) ↔ Solid ts ∧ Solid us := by
  simp only [Solid, List.mem_append, or_imp, forall_and]

theorem solid_ofText (s : Text) : Solid (ofText s) := by
  intro t ht
  obtain ⟨hs, rfl⟩ := mem_ofText.1 ht
  exact hs

theorem solid_tokenize (s : Text) : Solid (tokenize s) := by
  fun_induction tokenize s with
  | case1 s h => exact solid_ofText s
  | case2 s before t r h ih =>
    exact solid_append.2 ⟨solid_ofText before, solid_cons.2 ⟨source_ne_nil_of_firstTag? h, ih⟩⟩

theorem mark_of_mem_ofText {s : Text} {t : Token} (h : t ∈ ofText s) : t.mark = .text := by
  obtain ⟨-, rfl⟩ := mem_ofText.1 h
  rfl

/-- Whether every token that means something lies inside one of the parts of a text, and is allowed
there. Tokens and parts begin at the same character. -/
def Confined {α : Type} (text : α → Text) (allows : α → Mark → Bool) (start : Nat) (parts : List α)
    (ts : List Token) : Prop :=
  ∀ x ∈ placed source start ts, x.2.mark ≠ .text → ∃ y ∈ placed text start parts,
    y.1 ≤ x.1 ∧ x.1 + x.2.source.length ≤ y.1 + (text y.2).length ∧ allows y.2 x.2.mark = true

instance {α : Type} (text : α → Text) (allows : α → Mark → Bool) (start : Nat) (parts : List α)
    (ts : List Token) : Decidable (Confined text allows start parts ts) :=
  inferInstanceAs (Decidable (∀ x ∈ placed source start ts, x.2.mark ≠ .text → _))

/-- Tokens from the character `start` on, divided behind the text `x` into those before and those
after. The tokens on either side that mean something are tokens that were there. -/
structure Divides (ts : List Token) (start : Nat) (us vs : List Token) (x y : Text) : Prop where
  /-- The tokens before are those of the text before. -/
  source_before : us.flatMap source = x
  /-- The tokens after are those of the text after. -/
  source_after : vs.flatMap source = y
  /-- No token before is empty. -/
  solid_before : Solid us
  /-- No token after is empty. -/
  solid_after : Solid vs
  /-- Together they are read like the tokens that are divided. -/
  readAlike : ReadAlike ts (us ++ vs)
  /-- A token before that means something was there. -/
  mem_before : ∀ z ∈ placed source start us, z.2.mark ≠ .text → z ∈ placed source start ts
  /-- A token after that means something was there. -/
  mem_after : ∀ z ∈ placed source (start + x.length) vs, z.2.mark ≠ .text →
    z ∈ placed source start ts

namespace Divides

variable {t : Token} {ts us vs : List Token} {start : Nat} {x y a : Text}

/-- At their beginning tokens are divided as they are. -/
theorem refl (hsolid : Solid ts) (start : Nat) :
    Divides ts start [] ts [] (ts.flatMap source) where
  source_before := rfl
  source_after := rfl
  solid_before := by simp [Solid]
  solid_after := hsolid
  readAlike := ReadAlike.refl ts
  mem_before := by simp [placed]
  mem_after _ hz _ := hz

/-- A token in front of the place of division stays whole. -/
theorem cons (h : Divides ts (start + t.source.length) us vs x y) (ht : t.source ≠ []) :
    Divides (t :: ts) start (t :: us) vs (t.source ++ x) y where
  source_before := by rw [List.flatMap_cons, h.source_before]
  source_after := h.source_after
  solid_before := solid_cons.2 ⟨ht, h.solid_before⟩
  solid_after := h.solid_after
  readAlike := ReadAlike.cons t h.readAlike
  mem_before z hz hmark := by
    rcases List.mem_cons.1 hz with rfl | hz
    · exact List.mem_cons_self
    · exact List.mem_cons_of_mem _ (h.mem_before z hz hmark)
  mem_after z hz hmark := by
    rw [List.length_append, ← Nat.add_assoc] at hz
    exact List.mem_cons_of_mem _ (h.mem_after z hz hmark)

/-- A text that stands across the place of division is divided into two. -/
theorem across (hsolid : Solid (t :: ts)) (hmark : t.mark = .text) (hsource : t.source = x ++ a)
    (start : Nat) :
    Divides (t :: ts) start (ofText x) (ofText a ++ ts) x (a ++ ts.flatMap source) where
  source_before := flatMap_source_ofText x
  source_after := by rw [List.flatMap_append, flatMap_source_ofText]
  solid_before := solid_ofText x
  solid_after := solid_append.2 ⟨solid_ofText a, (solid_cons.1 hsolid).2⟩
  readAlike := by
    have hread : ReadAlike [t] (ofText x ++ ofText a) :=
      (ReadAlike.of_mark_text hmark (solid_cons.1 hsolid).1).trans
        (hsource ▸ ReadAlike.ofText_append x a)
    rw [← List.append_assoc]
    exact hread.append (ReadAlike.refl ts)
  mem_before _ hz h := absurd (mark_of_mem_ofText (mem_of_mem_placed hz)) h
  mem_after z hz h := by
    rw [placed_append, flatMap_source_ofText, Nat.add_assoc, ← List.length_append, ← hsource] at hz
    rcases List.mem_append.1 hz with hz | hz
    · exact absurd (mark_of_mem_ofText (mem_of_mem_placed hz)) h
    · exact List.mem_cons_of_mem _ hz

end Divides

/-- Tokens may be divided where no token that means something stands across. -/
theorem exists_divides {ts : List Token} (hsolid : Solid ts) {x y : Text}
    (h : ts.flatMap source = x ++ y) (start : Nat)
    (hacross : ∀ z ∈ placed source start ts, z.1 < start + x.length →
      start + x.length < z.1 + z.2.source.length → z.2.mark = .text) :
    ∃ us vs, Divides ts start us vs x y := by
  induction ts generalizing x start with
  | nil =>
    obtain ⟨rfl, rfl⟩ := List.append_eq_nil_iff.1 h.symm
    exact ⟨[], [], Divides.refl hsolid start⟩
  | cons t ts ih =>
    obtain ⟨ht, hts⟩ := solid_cons.1 hsolid
    rw [List.flatMap_cons] at h
    rcases List.append_eq_append_iff.1 h with ⟨a, rfl, ha⟩ | ⟨a, hsource, rfl⟩
    · -- the token lies in front
      obtain ⟨us, vs, hdivides⟩ := ih hts ha (start + t.source.length) fun z hz => by
        rw [Nat.add_assoc, ← List.length_append]
        exact hacross z (List.mem_cons_of_mem _ hz)
      exact ⟨t :: us, vs, hdivides.cons ht⟩
    · by_cases hx : x = []
      · subst hx
        rw [List.nil_append] at hsource
        exact ⟨[], t :: ts, hsource ▸ Divides.refl hsolid start⟩
      by_cases ha : a = []
      · subst ha
        rw [List.append_nil] at hsource
        exact ⟨[t], ts, hsource ▸ by simpa using (Divides.refl hts _).cons ht⟩
      · -- the token stands across
        have hmark : t.mark = .text := by
          have hxpos := List.length_pos_iff.2 hx
          have hapos := List.length_pos_iff.2 ha
          refine hacross (start, t) List.mem_cons_self ?_ ?_
          · exact Nat.lt_add_of_pos_right hxpos
          · simp only [hsource, List.length_append]
            omega
        exact ⟨ofText x, ofText a ++ ts, Divides.across hsolid hmark hsource start⟩

namespace Confined

variable {α : Type} {text : α → Text} {allows : α → Mark → Bool} {start : Nat} {part : α}
  {parts : List α} {ts us vs : List Token} {y : Text}

/-- No token that means something stands across the end of the first part. -/
theorem not_across (h : Confined text allows start (part :: parts) ts) {z : Nat × Token}
    (hz : z ∈ placed source start ts) (hlt : z.1 < start + (text part).length)
    (hgt : start + (text part).length < z.1 + z.2.source.length) : z.2.mark = .text := by
  by_contra hmark
  obtain ⟨w, hw, hfrom, hto, -⟩ := h z hz hmark
  rcases List.mem_cons.1 hw with rfl | hw
  · exact absurd hto (by dsimp only; omega)
  · exact absurd hfrom (by have := (bounds_of_mem_placed hw).1; omega)

/-- The tokens before the end of the first part are allowed in it. -/
theorem allows_of_mem (h : Confined text allows start (part :: parts) ts)
    (hdivides : Divides ts start us vs (text part) y) {t : Token} (ht : t ∈ us)
    (hmark : t.mark ≠ .text) : allows part t.mark = true := by
  obtain ⟨n, hn⟩ := exists_mem_placed ht start
  obtain ⟨w, hw, hfrom, hto, hallows⟩ := h _ (hdivides.mem_before _ hn hmark) hmark
  rcases List.mem_cons.1 hw with rfl | hw
  · exact hallows
  · have := List.length_pos_iff.2 (hdivides.solid_before t ht)
    have := (bounds_of_mem_placed hn).2
    rw [hdivides.source_before] at this
    exact absurd (bounds_of_mem_placed hw).1 (by simp only at *; omega)

/-- The tokens behind the first part are confined to the others. -/
theorem after (h : Confined text allows start (part :: parts) ts)
    (hdivides : Divides ts start us vs (text part) y) :
    Confined text allows (start + (text part).length) parts vs := by
  intro z hz hmark
  obtain ⟨w, hw, hfrom, hto, hallows⟩ := h z (hdivides.mem_after z hz hmark) hmark
  refine ⟨w, ?_, hfrom, hto, hallows⟩
  rcases List.mem_cons.1 hw with rfl | hw
  · have := List.length_pos_iff.2 (hdivides.solid_after z.2 (mem_of_mem_placed hz))
    have := (bounds_of_mem_placed hz).1
    exact absurd hto (by dsimp only; omega)
  · exact hw

end Confined

/-- **The parts of a template can be read one by one**, if every token that means something lies
inside one of them. -/
theorem exists_divided {α : Type} {text : α → Text} {allows : α → Mark → Bool} {parts : List α}
    {ts : List Token} (hsolid : Solid ts) (h : ts.flatMap source = parts.flatMap text) (start : Nat)
    (hconfined : Confined text allows start parts ts) :
    ∃ tss : List (List Token), List.Forall₂ (fun y us => us.flatMap source = text y ∧
      ∀ t ∈ us, t.mark ≠ .text → allows y t.mark = true) parts tss ∧ ReadAlike ts tss.flatten := by
  induction parts generalizing ts start with
  | nil =>
    have hnil : ts = [] := by
      cases ts with
      | nil => rfl
      | cons t ts =>
        rw [List.flatMap_cons, List.flatMap_nil] at h
        exact absurd (List.append_eq_nil_iff.1 h).1 (solid_cons.1 hsolid).1
    exact ⟨[], .nil, by rw [hnil]; exact ReadAlike.refl []⟩
  | cons part parts ih =>
    rw [List.flatMap_cons] at h
    obtain ⟨us, vs, hdivides⟩ := exists_divides hsolid h start fun _ => hconfined.not_across
    obtain ⟨tss, htss, hread⟩ :=
      ih hdivides.solid_after hdivides.source_after _ (hconfined.after hdivides)
    refine ⟨us :: tss, .cons ⟨hdivides.source_before, fun _ => hconfined.allows_of_mem hdivides⟩
      htss, ?_⟩
    rw [List.flatten_cons]
    exact hdivides.readAlike.trans ((ReadAlike.refl us).append hread)

end Token

end MaskedViews
