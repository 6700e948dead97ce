import KeypadCalculator.Proofs.Json.Scalars

/-!
A reader of JSON texts that accepts just what the grammar allows. What it knows of values is handed
to it layer by layer, so that arrays and objects are read as soon as what stands in them is.
-/

namespace KeypadCalculator.Json

variable {α : Type} {c close : Char} {n : ℕ} {t u w rest : Text} {v : Value} {x : α} {xs : List α}
  {item? : Text → Option (α × Text)} {value? : Text → Option (Value × Text)}
  {R R' : α → Text → Prop} {V V' : Value → Text → Prop}

def skip (t : Text) : Text := t.dropWhile isSpace

/-- Items from the first one on, up to the closing mark. -/
def items? (close : Char) (item? : Text → Option (α × Text)) (t : Text) : Option (List α × Text) :=
  match item? (skip t) with
  | none => none
  | some (x, rest) =>
    match skip rest with
    | [] => none
    | c :: rest =>
      if c = close then some ([x], rest)
      else if _h : c = ',' ∧ rest.length < t.length then
        (items? close item? rest).map fun (xs, rest) => (x :: xs, rest)
      else none
termination_by t.length
decreasing_by exact _h.2

def group? (close : Char) (item? : Text → Option (α × Text)) (t : Text) : Option (List α × Text) :=
  match skip t with
  | [] => none
  | c :: rest => if c = close then some ([], rest) else items? close item? t

def member? (value? : Text → Option (Value × Text)) : Text → Option ((Text × Value) × Text)
  | '"' :: t =>
    (letters? t).bind fun (name, rest) =>
      match skip rest with
      | ':' :: rest => (value? (skip rest)).map fun (v, rest) => ((name, v), rest)
      | _ => none
  | _ => none

def layer? (value? : Text → Option (Value × Text)) : Text → Option (Value × Text)
  | 'n' :: 'u' :: 'l' :: 'l' :: t => some (.null, t)
  | 't' :: 'r' :: 'u' :: 'e' :: t => some (.boolean true, t)
  | 'f' :: 'a' :: 'l' :: 's' :: 'e' :: t => some (.boolean false, t)
  | '"' :: t => (letters? t).map fun (u, rest) => (.text u, rest)
  | '[' :: t => (group? ']' value? t).map fun (vs, rest) => (.array vs, rest)
  | '{' :: t => (group? '}' (member? value?) t).map fun (ms, rest) => (.object ms, rest)
  | t => (number? t).map fun (x, rest) => (.number x, rest)

/-- A value of no more layers than this. -/
def nested? : ℕ → Text → Option (Value × Text)
  | 0 => fun _ => none
  | n + 1 => layer? (nested? n)

/-- What a JSON text says. No value has more layers than its text has characters. -/
def read? (t : Text) : Option Value :=
  (nested? t.length (skip t)).bind fun (v, rest) => if skip rest = [] then some v else none

theorem exists_skip (t : Text) : ∃ w, IsBlank w ∧ t = w ++ skip t :=
  ⟨t.takeWhile isSpace, fun _ hc => List.mem_takeWhile_imp hc,
    List.takeWhile_append_dropWhile.symm⟩

theorem skip_append (hw : IsBlank w) (hc : isSpace c = false) (t : Text) :
    skip (w ++ c :: t) = c :: t := by
  rw [skip, List.dropWhile_append_of_pos hw,
    List.dropWhile_cons_of_neg (Bool.eq_false_iff.mp hc)]

theorem skip_blank (h : IsBlank w) : skip w = [] := List.dropWhile_eq_nil_iff.mpr h

theorem endsNumber_append (h : IsBlank w) (ht : EndsNumber t) : EndsNumber (w ++ t) := by
  cases w with
  | nil => exact ht
  | cons d w =>
    intro c hc
    obtain rfl := Option.some.inj hc
    have hends : ∀ d ∈ [' ', '\t', '\n', '\r'], goesOn d = false := by simp [goesOn]
    exact hends d (of_decide_eq_true (h d (by simp)))

theorem endsNumber_cons (h : goesOn c = false) (t : Text) : EndsNumber (c :: t) := by
  intro d hd
  obtain rfl := Option.some.inj hd
  exact h

/-- What an item may start with. -/
def opens (c : Char) : Bool := decide (c ∉ [' ', '\t', '\n', '\r', ']', '}'])

/-- A reader that accepts just the texts of a kind of items, unless a number could go on behind. -/
structure Reads (item? : Text → Option (α × Text)) (R : α → Text → Prop) : Prop where
  head {x : α} {u : Text} : R x u → ∃ c v, u = c :: v ∧ opens c = true
  complete {x : α} {u rest : Text} : R x u → EndsNumber rest → item? (u ++ rest) = some (x, rest)
  sound {x : α} {t rest : Text} : item? t = some (x, rest) → ∃ u, R x u ∧ t = u ++ rest

/-- The marks that close arrays and objects. -/
def Closes (close : Char) : Prop := close = ']' ∨ close = '}'

theorem Closes.spec (h : Closes close) :
    isSpace close = false ∧ goesOn close = false ∧ close ≠ ',' := by
  rcases h with rfl | rfl <;> decide

theorem Closes.ne_of_opens (h : Closes close) (hc : opens c = true) : c ≠ close := by
  rintro rfl
  rcases h with rfl | rfl <;> exact absurd hc (by decide)

theorem isSpace_of_opens (h : opens c = true) : isSpace c = false := by
  have hopens := of_decide_eq_true h
  have hspaces : [' ', '\t', '\n', '\r'] ⊆ [' ', '\t', '\n', '\r', ']', '}'] := by decide
  exact decide_eq_false fun hspace => hopens (hspaces hspace)

theorem Reads.skip_eq (h : Reads item? R) (hx : R x u) (hw : IsBlank w) (t : Text) :
    skip (w ++ (u ++ t)) = u ++ t := by
  obtain ⟨c, v, rfl, hc⟩ := h.head hx
  exact skip_append hw (isSpace_of_opens hc) _

theorem Reads.items?_complete (h : Reads item? R) (hclose : Closes close)
    (hitems : Items close R xs t) (rest : Text) :
    items? close item? (t ++ rest) = some (xs, rest) := by
  obtain ⟨hspace, hends, hcomma⟩ := hclose.spec
  induction hitems with
  | @last x u w w' hw hu hw' =>
    have hnumber : EndsNumber (w' ++ close :: rest) :=
      endsNumber_append hw' (endsNumber_cons hends rest)
    have htext : w ++ (u ++ (w' ++ [close])) ++ rest = w ++ (u ++ (w' ++ close :: rest)) := by simp
    rw [htext, items?, h.skip_eq hu hw, h.complete hu hnumber]
    simp only [skip_append hw' hspace, if_true]
  | @more x xs t u w w' hw hu hw' hitems ih =>
    have hnumber : EndsNumber (w' ++ ',' :: (t ++ rest)) :=
      endsNumber_append hw' (endsNumber_cons rfl _)
    have htext : w ++ (u ++ (w' ++ ',' :: t)) ++ rest = w ++ (u ++ (w' ++ ',' :: (t ++ rest))) := by
      simp
    have hshorter : (t ++ rest).length < (w ++ (u ++ (w' ++ ',' :: (t ++ rest)))).length := by
      simp only [List.length_append, List.length_cons]
      omega
    have hafter : skip (w' ++ ',' :: (t ++ rest)) = ',' :: (t ++ rest) := skip_append hw' rfl _
    rw [htext, items?, h.skip_eq hu hw, h.complete hu hnumber]
    simp only [hafter, if_neg hcomma.symm, true_and, dif_pos hshorter, ih, Option.map_some]

theorem Reads.items?_sound (h : Reads item? R) (hread : items? close item? t = some (xs, rest)) :
    ∃ u, Items close R xs u ∧ t = u ++ rest := by
  fun_induction items? close item? t generalizing xs with
  | case1 => cases hread
  | case2 => cases hread
  | case3 t x after hitem last hlast =>
    obtain ⟨rfl, rfl⟩ := Prod.mk.inj (Option.some.inj hread)
    obtain ⟨w, hw, ht⟩ := exists_skip t
    obtain ⟨w', hw', hafter⟩ := exists_skip after
    obtain ⟨u, hu, hskip⟩ := h.sound hitem
    refine ⟨_, .last hw hu hw', ?_⟩
    rw [ht, hskip, hafter, hlast]
    simp
  | case4 t x after hitem c last hlast hc hcomma ih =>
    obtain ⟨⟨ys, last'⟩, hlater, heq⟩ := Option.map_eq_some_iff.mp hread
    obtain ⟨rfl, rfl⟩ := Prod.mk.inj heq
    obtain ⟨rfl, -⟩ := hcomma
    obtain ⟨w, hw, ht⟩ := exists_skip t
    obtain ⟨w', hw', hafter⟩ := exists_skip after
    obtain ⟨u, hu, hskip⟩ := h.sound hitem
    obtain ⟨v, hv, rfl⟩ := ih hlater
    refine ⟨_, .more hw hu hw' hv, ?_⟩
    rw [ht, hskip, hafter, hlast]
    simp
  | case5 => cases hread

theorem Items.exists_append (h : Items close R xs t) (hR : Reads item? R) :
    ∃ w c v, IsBlank w ∧ t = w ++ c :: v ∧ opens c = true := by
  cases h with
  | last hw hu =>
    obtain ⟨c, v, rfl, hc⟩ := hR.head hu
    exact ⟨_, c, _, hw, rfl, hc⟩
  | more hw hu =>
    obtain ⟨c, v, rfl, hc⟩ := hR.head hu
    exact ⟨_, c, _, hw, rfl, hc⟩

theorem Reads.group?_complete (h : Reads item? R) (hclose : Closes close)
    (hgroup : Group close R xs t) (rest : Text) :
    group? close item? (t ++ rest) = some (xs, rest) := by
  cases hgroup with
  | @empty w hw =>
    have hread : skip (w ++ [close] ++ rest) = close :: rest := by
      rw [List.append_assoc]
      exact skip_append hw hclose.spec.1 rest
    simp only [group?, hread, if_true]
  | items hitems =>
    have hread := h.items?_complete hclose hitems rest
    obtain ⟨w, c, v, hw, rfl, hc⟩ := hitems.exists_append h
    have hskip : skip (w ++ c :: v ++ rest) = c :: (v ++ rest) := by
      rw [List.append_assoc]
      exact skip_append hw (isSpace_of_opens hc) _
    simp only [group?, hskip, if_neg (hclose.ne_of_opens hc), hread]

theorem Reads.group?_sound (h : Reads item? R) (hread : group? close item? t = some (xs, rest)) :
    ∃ u, Group close R xs u ∧ t = u ++ rest := by
  simp only [group?] at hread
  split at hread
  · cases hread
  · next c after hskip =>
    split at hread
    · next hclose =>
      obtain ⟨rfl, rfl⟩ := Prod.mk.inj (Option.some.inj hread)
      obtain ⟨w, hw, ht⟩ := exists_skip t
      refine ⟨_, .empty hw, ?_⟩
      rw [ht, hskip, hclose]
      simp
    · obtain ⟨u, hitems, rfl⟩ := h.items?_sound hread
      exact ⟨u, .items hitems, rfl⟩

theorem Reads.member? (h : Reads value? V) : Reads (member? value?) (Member V) where
  head hmember := by
    cases hmember with
    | intro => exact ⟨_, _, rfl, rfl⟩
  complete {_ _ rest} hmember hrest := by
    cases hmember with
    | @intro name u w w' v t hname hw hw' hv =>
      have hletters := letters?_complete hname (w ++ ':' :: (w' ++ (t ++ rest)))
      have hcolon : skip (w ++ ':' :: (w' ++ (t ++ rest))) = ':' :: (w' ++ (t ++ rest)) :=
        skip_append hw rfl _
      simp only [List.cons_append, List.append_assoc, Json.member?, hletters, Option.bind_some,
        hcolon, h.skip_eq hv hw', h.complete hv hrest, Option.map_some]
  sound {_ t rest} hread := by
    unfold Json.member? at hread
    split at hread
    · obtain ⟨⟨name, after⟩, hletters, hbehind⟩ := Option.bind_eq_some_iff.mp hread
      obtain ⟨u, hu, rfl⟩ := letters?_sound hletters
      dsimp only at hbehind
      split at hbehind
      · next last hcolon =>
        obtain ⟨⟨v, rest'⟩, hvalue, heq⟩ := Option.map_eq_some_iff.mp hbehind
        obtain ⟨rfl, rfl⟩ := Prod.mk.inj heq
        obtain ⟨w, hw, hafter⟩ := exists_skip after
        obtain ⟨w', hw', hlast⟩ := exists_skip last
        obtain ⟨t, ht, hskip⟩ := h.sound hvalue
        refine ⟨_, .intro hu hw hw' ht, ?_⟩
        rw [hafter, hcolon, hlast, hskip]
        simp
      · cases hbehind
    · cases hread

theorem opens_of_number (h : c = '-' ∨ c.isDigit = true) : opens c = true := by
  rcases h with rfl | hdigit
  · rfl
  · have hnone : ∀ d ∈ [' ', '\t', '\n', '\r', ']', '}'], d.isDigit = false := by simp
    refine decide_eq_true fun hmem => ?_
    rw [hnone c hmem] at hdigit
    cases hdigit

theorem Reads.layer? (h : Reads value? V) : Reads (layer? value?) (Layer V) where
  head hlayer := by
    cases hlayer with
    | number hx =>
      obtain ⟨c, v, rfl, hc⟩ := hx.exists_cons
      exact ⟨c, v, rfl, opens_of_number hc⟩
    | _ => exact ⟨_, _, rfl, rfl⟩
  complete {_ _ rest} hlayer hrest := by
    cases hlayer with
    | null => rfl
    | true => rfl
    | false => rfl
    | number hx =>
      have hread := number?_complete hx hrest
      obtain ⟨c, v, rfl, hc⟩ := hx.exists_cons
      rw [List.cons_append] at hread ⊢
      rw [Json.layer?, hread]
      · rfl
      all_goals
        intro after heq
        obtain ⟨rfl, -⟩ := List.cons.inj heq
        exact absurd hc (by decide)
    | @text t u ht =>
      have hread := letters?_complete ht rest
      simp [Json.layer?, hread]
    | array hvs =>
      have hread := h.group?_complete (Or.inl rfl) hvs rest
      simp [Json.layer?, hread]
    | object hms =>
      have hread := h.member?.group?_complete (Or.inr rfl) hms rest
      simp [Json.layer?, hread]
  sound {_ t rest} hread := by
    unfold Json.layer? at hread
    split at hread
    · obtain ⟨rfl, rfl⟩ := Prod.mk.inj (Option.some.inj hread)
      exact ⟨_, .null, rfl⟩
    · obtain ⟨rfl, rfl⟩ := Prod.mk.inj (Option.some.inj hread)
      exact ⟨_, .true, rfl⟩
    · obtain ⟨rfl, rfl⟩ := Prod.mk.inj (Option.some.inj hread)
      exact ⟨_, .false, rfl⟩
    all_goals
      obtain ⟨⟨y, after⟩, hpart, heq⟩ := Option.map_eq_some_iff.mp hread
      obtain ⟨rfl, rfl⟩ := Prod.mk.inj heq
    · obtain ⟨u, hu, rfl⟩ := letters?_sound hpart
      exact ⟨_, .text hu, by simp⟩
    · obtain ⟨u, hu, rfl⟩ := h.group?_sound hpart
      exact ⟨_, .array hu, rfl⟩
    · obtain ⟨u, hu, rfl⟩ := h.member?.group?_sound hpart
      exact ⟨_, .object hu, rfl⟩
    · obtain ⟨u, hu, rfl⟩ := number?_sound hpart
      exact ⟨u, .number hu, rfl⟩

theorem reads_nested (n : ℕ) : Reads (nested? n) (Nested n) := by
  induction n with
  | zero => exact ⟨nofun, nofun, nofun⟩
  | succ n ih => exact ih.layer?

/-- Items may be of another kind, if the shorter texts among them are. -/
theorem Items.mono (h : Items close R xs t)
    (hR : ∀ x u, u.length < t.length → R x u → R' x u) : Items close R' xs t := by
  induction h with
  | last hw hu hw' =>
    refine .last hw (hR _ _ ?_ hu) hw'
    simp only [List.length_append, List.length_cons]
    omega
  | more hw hu hw' _ ih =>
    refine .more hw (hR _ _ ?_ hu) hw' (ih fun x u hlt hx => hR x u ?_ hx)
    all_goals
      simp only [List.length_append, List.length_cons]
      omega

theorem Group.mono (h : Group close R xs t)
    (hR : ∀ x u, u.length < t.length → R x u → R' x u) : Group close R' xs t := by
  cases h with
  | empty hw => exact .empty hw
  | items hitems => exact .items (hitems.mono hR)

theorem Member.mono {m : Text × Value} (h : Member V m t)
    (hV : ∀ v u, u.length < t.length → V v u → V' v u) : Member V' m t := by
  cases h with
  | intro hname hw hw' hv =>
    refine .intro hname hw hw' (hV _ _ ?_ hv)
    simp only [List.length_append, List.length_cons]
    omega

theorem Layer.mono (h : Layer V v t) (hV : ∀ w u, u.length < t.length → V w u → V' w u) :
    Layer V' v t := by
  cases h with
  | null => exact .null
  | true => exact .true
  | false => exact .false
  | number hx => exact .number hx
  | text ht => exact .text ht
  | array hvs =>
    exact .array (hvs.mono fun w u hlt => hV w u (hlt.trans (Nat.lt_succ_self _)))
  | object hms =>
    refine .object (hms.mono fun m u hlt hm => hm.mono fun w s hs => hV w s ?_)
    exact (hs.trans hlt).trans (Nat.lt_succ_self _)

/-- What stands in a value is shorter than it, so there are no more layers than characters. -/
theorem Nested.of_length (h : Nested n v t) {m : ℕ} (hm : t.length ≤ m) : Nested m v t := by
  induction n generalizing v t m with
  | zero => exact h.elim
  | succ n ih =>
    obtain ⟨c, u, rfl, -⟩ := (reads_nested (n + 1)).head h
    cases m with
    | zero => cases hm
    | succ m => exact Layer.mono h fun w s hs hw => ih hw (by omega)

/-- The reader accepts the texts of the grammar and no others, and reads what they say. -/
theorem read?_eq_some_iff : read? t = some v ↔ Document v t := by
  constructor
  · intro h
    obtain ⟨⟨w, after⟩, hnested, hend⟩ := Option.bind_eq_some_iff.mp h
    dsimp only at hend
    split at hend
    · next hskip =>
      obtain rfl := Option.some.inj hend
      obtain ⟨u, hu, htext⟩ := (reads_nested _).sound hnested
      obtain ⟨b, hb, ht⟩ := exists_skip t
      obtain ⟨b', hb', hafter⟩ := exists_skip after
      rw [hskip, List.append_nil] at hafter
      rw [ht, htext, hafter]
      exact .intro hb hu hb'
    · cases hend
  · rintro @⟨n, w, u, w', hw, hu, hw'⟩
    have hlength : u.length ≤ (w ++ (u ++ w')).length := by
      simp only [List.length_append]
      omega
    have hreads := reads_nested (w ++ (u ++ w')).length
    have hnested := hu.of_length hlength
    have hends : EndsNumber w' := by
      rw [← List.append_nil w']
      exact endsNumber_append hw' nofun
    simp only [read?, hreads.skip_eq hnested hw, hreads.complete hnested hends, Option.bind_some,
      skip_blank hw', if_true]

end KeypadCalculator.Json
