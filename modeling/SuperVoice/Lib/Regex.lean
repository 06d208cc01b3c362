import Mathlib.Computability.Language

/-! Regular expressions as a backtracking matcher tries them, the preferred way first, and the
replacement of every match from left to right. -/

/-- Greedy expressions without groups to refer back to. -/
inductive Regex (α : Type*) where
  | eps
  | one (p : α → Bool)
  | seq (r s : Regex α)
  | alt (r s : Regex α)
  | opt (r : Regex α)
  | star (r : Regex α)
  /-- Where an element that satisfies `p` meets one that does not, or an end of the text. -/
  | boundary (p : α → Bool)

namespace Regex
variable {α : Type*}

/-- A place in a text; what stands before it is reversed. -/
@[ext]
structure Cursor (α : Type*) where
  before : List α
  after : List α

def Cursor.skip (c : Cursor α) (n : Nat) : Cursor α :=
  ⟨(c.after.take n).reverse ++ c.before, c.after.drop n⟩

/-- As often as possible, as long as something is matched each time. -/
def iterate (f : Cursor α → List (Cursor α)) : Nat → Cursor α → List (Cursor α)
  | 0, c => [c]
  | n + 1, c =>
    ((f c).filter fun d => d.after.length < c.after.length).flatMap (iterate f n) ++ [c]

/-- The places where a match from here may end, the preferred one in front. -/
def run : Regex α → Cursor α → List (Cursor α)
  | eps, c => [c]
  | one p, c => match c.after with
    | [] => []
    | a :: as => if p a then [⟨a :: c.before, as⟩] else []
  | seq r s, c => (run r c).flatMap (run s)
  | alt r s, c => run r c ++ run s c
  | opt r, c => run r c ++ [c]
  | star r, c => iterate (run r) c.after.length c
  | boundary p, c => if c.before.head?.any p != c.after.head?.any p then [c] else []

/-- `r{n}` -/
def times (r : Regex α) : Nat → Regex α
  | 0 => eps
  | n + 1 => seq r (times r n)

/-- `r{n,}` -/
def atLeast (n : Nat) (r : Regex α) : Regex α := seq (times r n) (star r)

/-- The words that are matched, whatever surrounds them. -/
def language : Regex α → Language α
  | eps => 1
  | one p => {w | ∃ a, p a = true ∧ w = [a]}
  | seq r s => language r * language s
  | alt r s => language r + language s
  | opt r => language r + 1
  | star r => KStar.kstar (language r)
  | boundary _ => 1

/-- Nothing depends on what surrounds a word. -/
def Plain : Regex α → Prop
  | eps | one _ => True
  | seq r s | alt r s => Plain r ∧ Plain s
  | opt r | star r => Plain r
  | boundary _ => False

instance decidablePlain : (r : Regex α) → Decidable r.Plain
  | eps | one _ => .isTrue trivial
  | seq r s | alt r s =>
    @instDecidableAnd r.Plain s.Plain (decidablePlain r) (decidablePlain s)
  | opt r | star r => decidablePlain r
  | boundary _ => .isFalse id

/-- No class contains `a`. -/
def avoids (a : α) : Regex α → Bool
  | eps => true
  | one p => !p a
  | seq r s | alt r s => avoids a r && avoids a s
  | opt r | star r => avoids a r
  | boundary _ => true

/-- The empty word is matched. -/
def nullable : Regex α → Bool
  | one _ => false
  | seq r s => nullable r && nullable s
  | alt r s => nullable r || nullable s
  | eps | opt _ | star _ | boundary _ => true

section Words
variable {r : Regex α} {c d : Cursor α} {w rest : List α}

theorem not_mem_of_avoids {a : α} (h : r.avoids a = true) (hw : w ∈ r.language) : a ∉ w := by
  induction r generalizing w with
  | eps =>
    rw [(Language.mem_one _).mp hw]
    exact List.not_mem_nil
  | one p =>
    obtain ⟨b, hb, rfl⟩ := hw
    intro hmem
    rw [List.mem_singleton.mp hmem] at h
    simp [avoids, hb] at h
  | seq r s ihr ihs =>
    obtain ⟨hr, hs⟩ := Bool.and_eq_true_iff.mp h
    obtain ⟨u, hu, v, hv, rfl⟩ := Language.mem_mul.mp hw
    rw [List.mem_append, not_or]
    exact ⟨ihr hr hu, ihs hs hv⟩
  | alt r s ihr ihs =>
    obtain ⟨hr, hs⟩ := Bool.and_eq_true_iff.mp h
    obtain hw | hw := (Language.mem_add _ _ _).mp hw
    · exact ihr hr hw
    · exact ihs hs hw
  | opt r ih =>
    obtain hw | hw := (Language.mem_add _ _ _).mp hw
    · exact ih h hw
    · rw [(Language.mem_one _).mp hw]
      exact List.not_mem_nil
  | star r ih =>
    obtain ⟨ws, rfl, hws⟩ := Language.mem_kstar.mp hw
    intro hmem
    obtain ⟨v, hv, hav⟩ := List.mem_flatten.mp hmem
    exact ih h (hws v hv) hav
  | boundary p =>
    rw [(Language.mem_one _).mp hw]
    exact List.not_mem_nil

theorem nullable_of_nil_mem (h : [] ∈ r.language) : r.nullable = true := by
  induction r with
  | one p =>
    obtain ⟨a, -, ha⟩ := h
    cases ha
  | seq r s ihr ihs =>
    obtain ⟨u, hu, v, hv, he⟩ := Language.mem_mul.mp h
    obtain ⟨rfl, rfl⟩ := List.append_eq_nil_iff.mp he
    rw [nullable, ihr hu, ihs hv]
    rfl
  | alt r s ihr ihs =>
    rw [nullable, Bool.or_eq_true]
    exact ((Language.mem_add _ _ _).mp h).imp ihr ihs
  | eps | opt | star | boundary => rfl

theorem ne_nil_of_mem (hr : r.nullable = false) (hw : w ∈ r.language) : w ≠ [] := by
  rintro rfl
  exact Bool.eq_false_iff.mp hr (nullable_of_nil_mem hw)

/-- `d` lies behind the word `w` that starts at `c`. -/
def Cursor.Behind (c : Cursor α) (w : List α) (d : Cursor α) : Prop :=
  c.after = w ++ d.after ∧ d.before = w.reverse ++ c.before

theorem Cursor.Behind.nil (c : Cursor α) : c.Behind [] c := ⟨rfl, rfl⟩

theorem Cursor.Behind.eq_of_nil (h : c.Behind [] d) : d = c := Cursor.ext h.2 h.1.symm

theorem Cursor.Behind.append {e : Cursor α} {v : List α} (h : c.Behind w d) (h' : d.Behind v e) :
    c.Behind (w ++ v) e := by
  refine ⟨?_, ?_⟩
  · rw [h.1, h'.1, List.append_assoc]
  · rw [h'.2, h.2, List.reverse_append, List.append_assoc]

theorem Cursor.Behind.length_lt (h : c.Behind w d) (hw : w ≠ []) :
    d.after.length < c.after.length := by
  have hpos : 0 < w.length := List.length_pos_iff.mpr hw
  rw [h.1, List.length_append]
  omega

theorem behind_of_iterate {f : Cursor α → List (Cursor α)} {l : Language α} {n : Nat}
    (hf : ∀ c d, d ∈ f c → ∃ w ∈ l, c.Behind w d) (h : d ∈ iterate f n c) :
    ∃ w ∈ KStar.kstar l, c.Behind w d := by
  induction n generalizing c with
  | zero =>
    rw [iterate, List.mem_singleton] at h
    subst h
    exact ⟨[], Language.nil_mem_kstar l, .nil _⟩
  | succ n ih =>
    rw [iterate, List.mem_append, List.mem_singleton] at h
    obtain h | rfl := h
    · obtain ⟨e, he, hd⟩ := List.mem_flatMap.mp h
      obtain ⟨w, hw, hce⟩ := hf c e (List.mem_filter.mp he).1
      obtain ⟨v, hv, hed⟩ := ih hd
      obtain ⟨ws, rfl, hws⟩ := Language.mem_kstar.mp hv
      refine ⟨w ++ ws.flatten, Language.mem_kstar.mpr ⟨w :: ws, rfl, ?_⟩, hce.append hed⟩
      exact List.forall_mem_cons.mpr ⟨hw, hws⟩
    · exact ⟨[], Language.nil_mem_kstar l, .nil _⟩

/-- What is matched is a word of the language. -/
theorem behind_of_run (h : d ∈ r.run c) : ∃ w ∈ r.language, c.Behind w d := by
  induction r generalizing c d with
  | eps =>
    rw [List.mem_singleton.mp h]
    exact ⟨[], rfl, .nil c⟩
  | one p =>
    obtain ⟨before, after⟩ := c
    cases after with
    | nil => cases h
    | cons a as =>
      simp only [run] at h
      split at h
      · next hp =>
        rw [List.mem_singleton.mp h]
        exact ⟨[a], ⟨a, hp, rfl⟩, rfl, rfl⟩
      · cases h
  | seq r s ihr ihs =>
    obtain ⟨e, he, hd⟩ := List.mem_flatMap.mp h
    obtain ⟨w, hw, hce⟩ := ihr he
    obtain ⟨v, hv, hed⟩ := ihs hd
    exact ⟨w ++ v, Language.append_mem_mul hw hv, hce.append hed⟩
  | alt r s ihr ihs =>
    obtain h | h := List.mem_append.mp h
    · obtain ⟨w, hw, hcd⟩ := ihr h
      exact ⟨w, .inl hw, hcd⟩
    · obtain ⟨w, hw, hcd⟩ := ihs h
      exact ⟨w, .inr hw, hcd⟩
  | opt r ih =>
    obtain h | h := List.mem_append.mp h
    · obtain ⟨w, hw, hcd⟩ := ih h
      exact ⟨w, .inl hw, hcd⟩
    · rw [List.mem_singleton.mp h]
      exact ⟨[], .inr rfl, .nil c⟩
  | star r ih => exact behind_of_iterate (fun _ _ hd => ih hd) h
  | boundary p =>
    rw [run] at h
    split at h
    · rw [List.mem_singleton.mp h]
      exact ⟨[], rfl, .nil c⟩
    · cases h

theorem mem_iterate {f : Cursor α → List (Cursor α)} {ws : List (List α)} {n : Nat}
    (hf : ∀ w ∈ ws, ∀ c d : Cursor α, c.Behind w d → d ∈ f c) (hne : ∀ w ∈ ws, w ≠ [])
    (hn : c.after.length ≤ n) (h : c.Behind ws.flatten d) : d ∈ iterate f n c := by
  induction ws generalizing c n with
  | nil =>
    have hd : d = c := h.eq_of_nil
    subst hd
    cases n with
    | zero => exact List.mem_singleton.mpr rfl
    | succ n => exact List.mem_append_right _ (List.mem_singleton.mpr rfl)
  | cons w ws ih =>
    let e : Cursor α := ⟨w.reverse ++ c.before, ws.flatten ++ d.after⟩
    have hce : c.Behind w e := ⟨by rw [h.1, List.flatten_cons, List.append_assoc], rfl⟩
    have hed : e.Behind ws.flatten d := by
      refine ⟨rfl, ?_⟩
      rw [h.2, List.flatten_cons, List.reverse_append, List.append_assoc]
    have hlt := hce.length_lt (hne w List.mem_cons_self)
    cases n with
    | zero => omega
    | succ n =>
      refine List.mem_append_left _ (List.mem_flatMap.mpr ⟨e, ?_, ?_⟩)
      · exact List.mem_filter.mpr ⟨hf w List.mem_cons_self c e hce, decide_eq_true hlt⟩
      · exact ih (fun v hv => hf v (List.mem_cons_of_mem w hv))
          (fun v hv => hne v (List.mem_cons_of_mem w hv)) (by omega) hed

/-- Every word of the language is matched, when nothing depends on what surrounds it. -/
theorem mem_run (hr : r.Plain) (hw : w ∈ r.language) (h : c.Behind w d) : d ∈ r.run c := by
  induction r generalizing w c d with
  | eps =>
    rw [(Language.mem_one _).mp hw] at h
    exact List.mem_singleton.mpr h.eq_of_nil
  | one p =>
    obtain ⟨a, ha, rfl⟩ := hw
    have hd : d = ⟨a :: c.before, d.after⟩ := Cursor.ext h.2 rfl
    rw [run, h.1, hd]
    simp [ha]
  | seq r s ihr ihs =>
    obtain ⟨u, hu, v, hv, rfl⟩ := Language.mem_mul.mp hw
    let e : Cursor α := ⟨u.reverse ++ c.before, v ++ d.after⟩
    have hce : c.Behind u e := ⟨by rw [h.1, List.append_assoc], rfl⟩
    have hed : e.Behind v d := ⟨rfl, by rw [h.2, List.reverse_append, List.append_assoc]⟩
    exact List.mem_flatMap.mpr ⟨e, ihr hr.1 hu hce, ihs hr.2 hv hed⟩
  | alt r s ihr ihs =>
    obtain hw | hw := (Language.mem_add _ _ _).mp hw
    · exact List.mem_append_left _ (ihr hr.1 hw h)
    · exact List.mem_append_right _ (ihs hr.2 hw h)
  | opt r ih =>
    obtain hw | hw := (Language.mem_add _ _ _).mp hw
    · exact List.mem_append_left _ (ih hr hw h)
    · rw [(Language.mem_one _).mp hw] at h
      exact List.mem_append_right _ (List.mem_singleton.mpr h.eq_of_nil)
  | star r ih =>
    obtain ⟨ws, rfl, hws⟩ := Language.mem_kstar_iff_exists_nonempty.mp hw
    exact mem_iterate (fun w hw c d hcd => ih hr (hws w hw).1 hcd) (fun w hw => (hws w hw).2)
      (Nat.le_refl _) h
  | boundary p => exact hr.elim

end Words

/-- How far a match from a given place goes; the flag asks for one that is not empty. -/
structure Matcher (α : Type*) where
  find : Bool → Cursor α → Option Nat
  le {notNull : Bool} {c : Cursor α} {n : Nat} (h : find notNull c = some n) : n ≤ c.after.length
  pos {c : Cursor α} {n : Nat} (h : find true c = some n) : 0 < n

/-- The preferred match of an expression. -/
def matcher (r : Regex α) : Matcher α where
  find notNull c :=
    ((r.run c).find? fun d => !notNull || d.after.length < c.after.length).map fun d =>
      c.after.length - d.after.length
  le h := by
    obtain ⟨d, -, rfl⟩ := Option.map_eq_some_iff.mp h
    exact Nat.sub_le _ _
  pos h := by
    obtain ⟨d, hd, rfl⟩ := Option.map_eq_some_iff.mp h
    have hlt := List.find?_some hd
    rw [Bool.not_true, Bool.false_or, decide_eq_true_iff] at hlt
    exact Nat.sub_pos_of_lt hlt

/-- Replace every match from here on. Behind an empty match the next one is tried at the same place,
but not an empty one. -/
def replaceFrom (m : Matcher α) (fmt : List α) : Nat → Bool → Cursor α → List α
  | 0, _, c => c.after
  | fuel + 1, notNull, c =>
    match m.find notNull c with
    | some 0 => fmt ++ replaceFrom m fmt fuel true c
    | some n => fmt ++ replaceFrom m fmt fuel false (c.skip n)
    | none => match c.after with
      | [] => []
      | a :: as => a :: replaceFrom m fmt fuel false ⟨a :: c.before, as⟩

def replaceAll (m : Matcher α) (fmt text : List α) : List α :=
  replaceFrom m fmt (2 * text.length + 1) false ⟨[], text⟩

/-- Pieces of a text that satisfy `hit` are replaced; where an element is kept, `kept` holds of the
text from there on. -/
inductive Replaced (fmt : List α) (kept hit : List α → Prop) : List α → List α → Prop
  | nil : Replaced fmt kept hit [] []
  | keep {a : α} {s t : List α} (h : kept (a :: s)) (ht : Replaced fmt kept hit s t) :
      Replaced fmt kept hit (a :: s) (a :: t)
  | replace {w s t : List α} (h : hit w) (ht : Replaced fmt kept hit s t) :
      Replaced fmt kept hit (w ++ s) (fmt ++ t)

section Replaced
variable {m : Matcher α} {fmt : List α} {kept hit : List α → Prop} {s t : List α}

theorem replaced_replaceFrom {fuel : Nat} {notNull : Bool} {c : Cursor α}
    (hkept : ∀ b c, m.find b c = none → kept c.after)
    (hhit : ∀ b c n, m.find b c = some n → hit (c.after.take n))
    (hfuel : 2 * c.after.length + (if notNull then 0 else 1) ≤ fuel) :
    Replaced fmt kept hit c.after (replaceFrom m fmt fuel notNull c) := by
  induction fuel generalizing c notNull with
  | zero =>
    have hnil : c.after = [] := List.eq_nil_of_length_eq_zero (by omega)
    rw [replaceFrom, hnil]
    exact .nil
  | succ fuel ih =>
    rw [replaceFrom]
    cases hfind : m.find notNull c with
    | none =>
      have hk := hkept notNull c hfind
      cases hafter : c.after with
      | nil => exact .nil
      | cons a as =>
        rw [hafter, List.length_cons] at hfuel
        rw [hafter] at hk
        exact .keep hk (ih (c := ⟨a :: c.before, as⟩) (by simp only [Bool.false_eq_true, if_false]; omega))
    | some n =>
      have hw := hhit notNull c n hfind
      cases n with
      | zero =>
        have hnot : notNull = false := by
          cases notNull with
          | false => rfl
          | true => exact absurd (m.pos hfind) (Nat.lt_irrefl 0)
        rw [hnot, if_neg Bool.false_ne_true] at hfuel
        exact .replace (w := []) hw (ih (by rw [if_pos rfl]; omega))
      | succ n =>
        have hle := m.le hfind
        have hrest : Replaced fmt kept hit (c.skip (n + 1)).after
            (replaceFrom m fmt fuel false (c.skip (n + 1))) := ih (by
          rw [Cursor.skip, List.length_drop, if_neg Bool.false_ne_true]
          omega)
        have hreplace := hrest.replace hw
        rwa [Cursor.skip, List.take_append_drop] at hreplace

theorem replaced_replaceAll (text : List α) (hkept : ∀ b c, m.find b c = none → kept c.after)
    (hhit : ∀ b c n, m.find b c = some n → hit (c.after.take n)) :
    Replaced fmt kept hit text (replaceAll m fmt text) :=
  replaced_replaceFrom (c := ⟨[], text⟩) hkept hhit (Nat.le_refl _)

theorem Replaced.of_suffixes {kept' : List α → Prop} (h : Replaced fmt kept hit s t)
    (hs : ∀ s', s' <:+ s → kept' s') : Replaced fmt kept' hit s t := by
  induction h with
  | nil => exact .nil
  | keep hk ht ih => exact .keep (hs _ (List.suffix_refl _)) (ih fun s' h =>
      hs s' (h.trans (List.suffix_cons _ _)))
  | replace hw ht ih => exact .replace hw (ih fun s' h => hs s' (h.trans (List.suffix_append _ _)))

/-- As far as no replacement begins, the text is kept. -/
theorem Replaced.of_append {x : α} {more u : List α} (hx : x ∉ u)
    (h : Replaced (x :: more) kept hit s (u ++ t)) :
    ∃ rest, s = u ++ rest ∧ Replaced (x :: more) kept hit rest t := by
  induction u generalizing s with
  | nil => exact ⟨s, rfl, h⟩
  | cons a u ih =>
    obtain ⟨hne, hx⟩ := List.ne_and_not_mem_of_not_mem_cons hx
    rw [List.cons_append] at h
    generalize he : a :: (u ++ t) = out at h
    cases h with
    | nil => cases he
    | keep hk ht =>
      obtain ⟨rfl, rfl⟩ := List.cons.inj he
      obtain ⟨rest, rfl, hrest⟩ := ih hx ht
      exact ⟨rest, rfl, hrest⟩
    | replace hw ht => exact absurd (List.cons.inj he).1.symm hne

end Replaced

/-- No word of the language occurs in the text. -/
def Free (l : Language α) (text : List α) : Prop := ∀ w ∈ l, ¬ w <:+: text

section Free
variable {l k : Language α} {r : Regex α} {m : Matcher α} {kept hit : List α → Prop} {x y : α}
  {mid s t u v : List α}

theorem Free.of_infix (h : Free l t) (hs : s <:+: t) : Free l s :=
  fun w hw hi => h w hw (hi.trans hs)

/-- What begins with a word without `y` lies on one side of `y`, or the word ends before it. -/
theorem infix_append_cons (hy : y ∉ u) (h : u ++ v <:+: s ++ y :: t) : u <:+: s ∨ u ++ v <:+: t := by
  obtain ⟨p, q, he⟩ := h
  rw [List.append_assoc, List.append_assoc] at he
  obtain ⟨s', hs, hrest⟩ | ⟨p', hp, hrest⟩ := List.append_eq_append_iff.mp he
  · obtain ⟨s'', hs', -⟩ | ⟨u', hu, hrest⟩ := List.append_eq_append_iff.mp hrest
    · exact .inl (by rw [hs, hs']; exact List.infix_append' p u s'')
    · cases u' with
      | nil => exact .inl (by rw [hs, hu, List.append_nil]; exact List.infix_append_right)
      | cons a u' =>
        rw [(List.cons.inj hrest).1, hu] at hy
        exact absurd (List.mem_append_right s' List.mem_cons_self) hy
  · cases p' with
    | nil =>
      cases u with
      | nil => exact .inl List.nil_infix
      | cons a u =>
        rw [(List.cons.inj hrest).1] at hy
        exact absurd List.mem_cons_self hy
    | cons a p' =>
      have ht : t = p' ++ (u ++ (v ++ q)) := (List.cons.inj hrest).2
      exact .inr ⟨p', q, by simp only [ht, List.append_assoc]⟩

/-- Words without the first and the last element of the replacement do not arise by replacing. -/
theorem free_of_replaced (hl : ∀ w ∈ l, x ∉ w ∧ y ∉ w) (hmid : Free l mid)
    (hkept : ∀ s, kept s → ∀ w ∈ l, ¬ w <+: s)
    (h : Replaced (x :: (mid ++ [y])) kept hit s t) : Free l t := by
  have hx : Free l (x :: mid) := by
    intro w hw hi
    obtain hp | hi := List.infix_cons_iff.mp hi
    · obtain rfl | ⟨w, rfl, -⟩ := List.prefix_cons_iff.mp hp
      · exact hmid [] hw List.nil_infix
      · exact (hl _ hw).1 List.mem_cons_self
    · exact hmid w hw hi
  induction h with
  | nil => exact hmid.of_infix List.nil_infix
  | @keep a s t hk ht ih =>
    intro w hw hi
    obtain ⟨t', ht'⟩ | hi := List.infix_cons_iff.mp hi
    · obtain ⟨rest, hs, -⟩ := Replaced.of_append (hl w hw).1 (ht' ▸ Replaced.keep hk ht)
      exact hkept _ hk w hw ⟨rest, hs.symm⟩
    · exact ih w hw hi
  | @replace w' s t hw' ht ih =>
    intro w hw hi
    have hsplit : x :: (mid ++ [y]) ++ t = (x :: mid) ++ y :: t := by simp
    rw [hsplit, ← List.append_nil w] at hi
    obtain hi | hi := infix_append_cons (hl w hw).2 hi
    · exact hx w hw hi
    · rw [List.append_nil] at hi
      exact ih w hw hi

/-- The last element of a word may be the first one of a replacement, if that takes the place of
something that would have completed the word as well. -/
theorem free_of_replaced_last {q : α → Bool} (hk : ∀ u ∈ k, x ∉ u ∧ y ∉ u) (hmid : Free k mid)
    (hkept : ∀ s, kept s → ∀ w ∈ k * (one q).language, ¬ w <+: s)
    (hhit : ∀ w, hit w → ∃ a v, w = a :: v ∧ q a = true)
    (h : Replaced (x :: (mid ++ [y])) kept hit s t) : Free (k * (one q).language) t := by
  have hx : Free k (x :: mid) := by
    intro u hu hi
    obtain hp | hi := List.infix_cons_iff.mp hi
    · obtain rfl | ⟨u, rfl, -⟩ := List.prefix_cons_iff.mp hp
      · exact hmid [] hu List.nil_infix
      · exact (hk _ hu).1 List.mem_cons_self
    · exact hmid u hu hi
  induction h with
  | nil =>
    intro w hw hi
    obtain ⟨u, hu, v, ⟨a, ha, rfl⟩, rfl⟩ := Language.mem_mul.mp hw
    have hlen := hi.length_le
    simp at hlen
  | @keep b s t hkb ht ih =>
    intro w hw hi
    obtain ⟨u, hu, v, ⟨a, ha, rfl⟩, rfl⟩ := Language.mem_mul.mp hw
    obtain ⟨t', ht'⟩ | hi := List.infix_cons_iff.mp hi
    · rw [List.append_assoc, List.singleton_append] at ht'
      obtain ⟨rest, hs, hrest⟩ := Replaced.of_append (hk u hu).1 (ht' ▸ Replaced.keep hkb ht)
      generalize he : a :: t' = out at hrest
      cases hrest with
      | nil => cases he
      | @keep b' s' _ hkept' _ =>
        obtain ⟨rfl, -⟩ := List.cons.inj he
        refine hkept _ hkb (u ++ [a]) hw ⟨s', ?_⟩
        rw [hs, List.append_assoc, List.singleton_append]
      | @replace w' s' _ hw' _ =>
        obtain ⟨c, v, rfl, hc⟩ := hhit w' hw'
        refine hkept _ hkb (u ++ [c]) (Language.append_mem_mul hu ⟨c, hc, rfl⟩) ⟨v ++ s', ?_⟩
        rw [hs, List.append_assoc, List.singleton_append, List.cons_append]
    · exact ih _ hw hi
  | @replace w' s t hw' ht ih =>
    intro w hw hi
    obtain ⟨u, hu, v, hv, rfl⟩ := Language.mem_mul.mp hw
    have hsplit : x :: (mid ++ [y]) ++ t = (x :: mid) ++ y :: t := by simp
    rw [hsplit] at hi
    obtain hi | hi := infix_append_cons (hk u hu).2 hi
    · exact hx u hu hi
    · exact ih _ hw hi

theorem not_prefix_of_find_none {notNull : Bool} {c : Cursor α} (hr : r.Plain)
    (hnull : r.nullable = false) (h : r.matcher.find notNull c = none) :
    ∀ w ∈ r.language, ¬ w <+: c.after := by
  intro w hw ⟨rest, hrest⟩
  have hbehind : c.Behind w ⟨w.reverse ++ c.before, rest⟩ := ⟨hrest.symm, rfl⟩
  have hnone := List.find?_eq_none.mp (Option.map_eq_none_iff.mp h) _ (mem_run hr hw hbehind)
  exact hnone (by rw [decide_eq_true (hbehind.length_lt (ne_nil_of_mem hnull hw)), Bool.or_true])

theorem take_mem_of_find_some {notNull : Bool} {c : Cursor α} {n : Nat}
    (h : r.matcher.find notNull c = some n) : c.after.take n ∈ r.language := by
  obtain ⟨d, hd, rfl⟩ := Option.map_eq_some_iff.mp h
  obtain ⟨w, hw, hbehind⟩ := behind_of_run (List.mem_of_find?_eq_some hd)
  rwa [hbehind.1, List.length_append, Nat.add_sub_cancel, List.take_left]

/-- A search from every place finds nothing. -/
def occurs (r : Regex α) (text : List α) : Bool :=
  text.tails.any fun s => !(r.run ⟨[], s⟩).isEmpty

theorem free_of_not_occurs (hr : r.Plain) (h : r.occurs t = false) : Free r.language t := by
  intro w hw ⟨p, rest, he⟩
  have hbehind : Cursor.Behind ⟨[], w ++ rest⟩ w ⟨w.reverse ++ [], rest⟩ := ⟨rfl, rfl⟩
  have htail : w ++ rest ∈ t.tails := by
    rw [List.mem_tails, ← he, List.append_assoc]
    exact List.suffix_append _ _
  have hnone := List.any_eq_false.mp h _ htail
  rw [Bool.not_eq_true, Bool.not_eq_false'] at hnone
  have hmem := mem_run hr hw hbehind
  rw [List.isEmpty_iff.mp hnone] at hmem
  cases hmem

end Free

end Regex
