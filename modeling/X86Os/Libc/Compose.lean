import X86Os.Libc.Vsprintf

/-!
# Formatting one format behind another

The width, its flag and the digit buffer survive the conversion that set them.
Behind another format a number can therefore be filled up, or drag along digits
that stand behind its own. Both only ever add characters, so the output of two
formats is that of each exactly when neither happens.
-/

namespace X86Os.Libc

open Library.Memory Library.Buffer
set_option autoImplicit false

/-- The first free place from `w` on. -/
def Shape.gapBehind (s : Shape) (w : Nat) : Option Nat :=
  firstIndex bufSize fun j => w ≤ j && !s.marks j

/-- A number is filled up alike in both shapes, and if it is, the digits that stand behind it end
at the same place. -/
def IndependentAt (s t : Shape) (d : Directive) (arg : List Word) : Prop :=
  ∀ c ival rest, d.number = some c → arg = ival :: rest →
    (s.enter d).padTo c ival = (t.enter d).padTo c ival ∧
      ∀ w, (t.enter d).padTo c ival = some w → s.gapBehind w = t.gapBehind w

def Independent : Shape → Shape → List Directive → List Word → Prop
  | _, _, [], _ => True
  | s, t, d :: ds, arg =>
    IndependentAt s t d arg ∧ Independent (s.after d arg) (t.after d arg) ds (arg.drop d.needs)

def Compositional (text : Word → CString) (ds₁ ds₂ : List Directive) (arg₁ arg₂ : List Word)
    (mem : Mem) : Prop :=
  ∃ chars₁ chars₂, shownBy text (ds₁.flatMap Directive.text) arg₁ mem = some chars₁ ∧
    shownBy text (ds₂.flatMap Directive.text) arg₂ mem = some chars₂ ∧
    shownBy text (ds₁.flatMap Directive.text ++ ds₂.flatMap Directive.text) (arg₁ ++ arg₂) mem =
      some (chars₁ ++ chars₂)

variable {s t : Shape} {l l' k k' : Locals} {c : Byte} {ival : Word} {arg : List Word} {w n : Nat}
variable {d : Directive} {ds ds₁ ds₂ : List Directive} {text : Word → CString} {cs : List Byte}

/-! ## More arguments and more directives -/

theorem digits_arg (l : Locals) (arg : List Word) : digits c ival { l with arg } = digits c ival l := by
  simp only [digits]

theorem numberText_more (more : List Word) (run : numberText c l = some (l', cs)) :
    numberText c { l with arg := l.arg ++ more } = some ({ l' with arg := l'.arg ++ more }, cs) := by
  obtain ⟨buf, size, sizeOverride, arg⟩ := l
  cases arg with
  | nil => cases run
  | cons ival arg =>
    have same : digits c ival ⟨buf, size, sizeOverride, ival :: (arg ++ more)⟩ = _ :=
      digits_arg ⟨buf, size, sizeOverride, ival :: arg⟩ _
    simp only [numberText, List.cons_append, same] at run ⊢
    obtain ⟨⟨buf', size', n⟩, found, eq⟩ := Option.map_eq_some_iff.mp run
    dsimp only at eq
    obtain ⟨rfl, rfl⟩ := Prod.mk.inj eq
    rw [found, Option.map_some]

theorem emit_more (more : List Word) (run : d.emit text l = some (l', cs)) :
    d.emit text { l with arg := l.arg ++ more } = some ({ l' with arg := l'.arg ++ more }, cs) := by
  cases d with
  | literal c =>
    obtain ⟨rfl, rfl⟩ := Prod.mk.inj (Option.some.inj run)
    rfl
  | padded width c =>
    rw [Directive.emit, Option.ite_none_right_eq_some] at run
    have extended := numberText_more more run.2
    rw [Directive.emit, if_pos run.1]
    exact extended
  | plain c =>
    cases number : isNumber c with
    | true =>
      rw [Directive.emit, if_pos number] at run ⊢
      exact numberText_more more run
    | false =>
      rw [emit_plain_iff number] at run ⊢
      obtain ⟨shows, v, rest, given, rfl, rfl⟩ | ⟨silent, rfl, rfl⟩ := run
      · refine .inl ⟨shows, v, rest ++ more, ?_, rfl, rfl⟩
        rw [given, List.cons_append]
      · exact .inr ⟨silent, rfl, rfl⟩

theorem emits_more (more : List Word) (run : emits text ds l = some (l', cs)) :
    emits text ds { l with arg := l.arg ++ more } = some ({ l' with arg := l'.arg ++ more }, cs) := by
  induction ds generalizing l l' cs with
  | nil =>
    obtain ⟨rfl, rfl⟩ := Prod.mk.inj (Option.some.inj run)
    rfl
  | cons d ds ih =>
    rw [emits] at run ⊢
    obtain ⟨⟨l₁, cs₁⟩, first, run⟩ := Option.bind_eq_some_iff.mp run
    obtain ⟨⟨l₂, cs₂⟩, second, eq⟩ := Option.map_eq_some_iff.mp run
    obtain ⟨rfl, rfl⟩ := Prod.mk.inj eq
    rw [emit_more more first, Option.bind_some, ih second]
    rfl

theorem emits_append : emits text (ds₁ ++ ds₂) l =
    (emits text ds₁ l).bind fun r => (emits text ds₂ r.1).map fun q => (q.1, r.2 ++ q.2) := by
  induction ds₁ generalizing l with
  | nil =>
    rw [List.nil_append, emits, Option.bind_some]
    simp
  | cons d ds₁ ih =>
    rw [List.cons_append, emits, emits]
    cases first : d.emit text l with
    | none => rfl
    | some r =>
      rw [Option.bind_some, Option.bind_some, ih]
      cases emits text ds₁ r.1 with
      | none => rfl
      | some q =>
        rw [Option.bind_some, Option.map_some, Option.bind_some, Option.map_map]
        simp only [Function.comp_def, List.append_assoc]

/-! ## Counting -/

/-- The first shape has all the marks of the second and its width, if that has one. -/
structure Over (s t : Shape) : Prop where
  marks : ∀ j, t.marks j = true → s.marks j = true
  width : t.width = none ∨ s.width = t.width

theorem over_start (s : Shape) : Over s .start where
  marks _ mark := Bool.noConfusion mark
  width := .inl rfl

theorem enter_marks : (s.enter d).marks = s.marks := by
  cases d <;> rfl

theorem Over.enter (above : Over s t) : Over (s.enter d) (t.enter d) := by
  cases d with
  | literal c => exact above
  | plain c => exact above
  | padded width c => exact ⟨above.marks, .inr rfl⟩

theorem Over.padTo (above : Over s t) (padded : t.padTo c ival = some w) : s.padTo c ival = some w := by
  obtain ⟨width, rest⟩ := padTo_eq_some.mp padded
  rw [padTo_eq_some]
  refine ⟨?_, rest⟩
  obtain none | same := above.width
  · rw [width] at none
    cases none
  · rw [same, width]

theorem Over.print (above : Over s t) : Over (s.print c ival) (t.print c ival) := by
  refine ⟨fun j => ?_, above.width⟩
  have below := above.marks j
  cases padded : t.padTo c ival with
  | some w =>
    rw [print_padded padded, print_padded (above.padTo padded), Bool.or_eq_true, Bool.or_eq_true]
    exact Or.imp_right below
  | none =>
    rw [print_plain padded]
    cases longer : s.padTo c ival with
    | none =>
      rw [print_plain longer]
      simp only [Bool.or_eq_true, Bool.and_eq_true]
      exact Or.imp_right (And.imp_right below)
    | some w =>
      have wide := (padTo_eq_some.mp longer).2.2
      rw [print_padded longer]
      simp only [Bool.or_eq_true, Bool.and_eq_true, decide_eq_true_eq]
      rintro (inside | ⟨_, mark⟩)
      · exact .inl (inside.trans wide)
      · exact .inr (below mark)

theorem Over.after (above : Over s t) : Over (s.after d arg) (t.after d arg) := by
  cases number : d.number with
  | none =>
    rw [after_other number, after_other number]
    exact above
  | some c =>
    cases arg with
    | nil =>
      rw [Shape.after, Shape.after, number]
      exact above.enter
    | cons ival arg =>
      rw [after_number number, after_number number]
      exact above.enter.print

theorem gap_print_padded (padded : s.padTo c ival = some w) :
    (s.print c ival).gap = s.gapBehind w := by
  apply firstIndex_congr
  intro j _
  rw [print_padded padded, Bool.not_or, ← decide_not]
  simp only [Nat.not_lt]

theorem Over.gap_le (above : Over s t) {m : Nat} (gapS : s.gap = some m) (gapT : t.gap = some n) :
    n ≤ m := by
  by_contra less
  have mark := (firstIndex_eq_some.mp gapT).2.2 m (Nat.not_le.mp less)
  have free := (firstIndex_eq_some.mp gapS).2.1
  rw [Bool.not_eq_false'] at mark
  rw [above.marks m mark] at free
  cases free

/-- Numbers are printed equally long exactly when they are independent of what came before. -/
theorem Over.gap_eq_iff (above : Over s t) {m : Nat} (gapS : (s.print c ival).gap = some m)
    (gapT : (t.print c ival).gap = some n) : m = n ↔ s.padTo c ival = t.padTo c ival ∧
      ∀ w, t.padTo c ival = some w → s.gapBehind w = t.gapBehind w := by
  constructor
  · rintro rfl
    cases padded : t.padTo c ival with
    | some w =>
      refine ⟨above.padTo padded, ?_⟩
      rintro _ ⟨⟩
      rw [← gap_print_padded padded, ← gap_print_padded (above.padTo padded), gapS, gapT]
    | none =>
      refine ⟨?_, by rintro w ⟨⟩⟩
      cases longer : s.padTo c ival with
      | none => rfl
      | some w =>
        have wide := (padTo_eq_some.mp longer).2.2
        rw [gap_print_padded longer] at gapS
        rw [gap_print_plain padded] at gapT
        have behind := (firstIndex_eq_some.mp gapS).2.1
        rw [← Option.some.inj gapT, Bool.and_eq_true, decide_eq_true_eq] at behind
        omega
  · rintro ⟨alike, behind⟩
    cases padded : t.padTo c ival with
    | some w =>
      rw [gap_print_padded (alike.trans padded), behind w padded, ← gap_print_padded padded, gapT]
        at gapS
      exact (Option.some.inj gapS).symm
    | none =>
      rw [gap_print_plain (alike.trans padded)] at gapS
      rw [gap_print_plain padded] at gapT
      exact Option.some.inj (gapS.symm.trans gapT)

theorem after_room (room : s.marks (bufSize - 1) = false) (fits : d.Fits s arg) :
    (s.after d arg).marks (bufSize - 1) = false := by
  have entered : (s.enter d).marks (bufSize - 1) = false := by rwa [enter_marks]
  cases number : d.number with
  | none => rwa [after_other number]
  | some c =>
    cases arg with
    | nil =>
      rw [Shape.after, number]
      exact entered
    | cons ival arg =>
      rw [after_number number]
      exact print_room entered (fits.2 c ival arg number rfl)

theorem count_other (text : Word → CString) (other : d.number = none) :
    d.count text s arg = d.count text t arg := by
  unfold Directive.count
  rw [other]

theorem Over.directive_count (text : Word → CString) (above : Over s t)
    (roomS : s.marks (bufSize - 1) = false) (roomT : t.marks (bufSize - 1) = false)
    (fitsS : d.Fits s arg) (fitsT : d.Fits t arg) :
    d.count text t arg ≤ d.count text s arg ∧
      (d.count text t arg = d.count text s arg → IndependentAt s t d arg) := by
  cases number : d.number with
  | none =>
    refine ⟨(count_other text number).le, fun _ c ival rest some => ?_⟩
    rw [number] at some
    cases some
  | some c =>
    cases arg with
    | nil =>
      refine ⟨?_, fun _ c ival rest _ none => by cases none⟩
      unfold Directive.count
      rw [number]
    | cons ival arg =>
      rw [← enter_marks (d := d)] at roomS roomT
      obtain ⟨m, gapS⟩ := gap_exists (print_room roomS (fitsS.2 c ival arg number rfl))
      obtain ⟨n, gapT⟩ := gap_exists (print_room roomT (fitsT.2 c ival arg number rfl))
      rw [count_number number, count_number number, gapS, gapT, Option.getD_some, Option.getD_some]
      have le := above.enter.print.gap_le gapS gapT
      refine ⟨by omega, ?_⟩
      rintro same c' ival' arg' number' ⟨⟩
      obtain rfl := Option.some.inj (number.symm.trans number')
      have cond := (above.enter.gap_eq_iff gapS gapT).mp (by omega)
      simpa only [Shape.gapBehind, enter_marks] using cond

/-- Behind other formats a format never emits less, and emits as much only when its numbers are
independent of them. -/
theorem Over.count (text : Word → CString) (above : Over s t)
    (roomS : s.marks (bufSize - 1) = false) (roomT : t.marks (bufSize - 1) = false)
    (fitsS : Fits s ds arg) (fitsT : Fits t ds arg) :
    Libc.count text t ds arg ≤ Libc.count text s ds arg ∧
      (Libc.count text t ds arg = Libc.count text s ds arg → Independent s t ds arg) := by
  induction ds generalizing s t arg with
  | nil => exact ⟨le_rfl, fun _ => trivial⟩
  | cons d ds ih =>
    obtain ⟨fitsDS, _, fitsS⟩ := fitsS
    obtain ⟨fitsDT, _, fitsT⟩ := fitsT
    obtain ⟨le, first⟩ := above.directive_count text roomS roomT fitsDS fitsDT
    obtain ⟨les, rest⟩ := ih above.after (after_room roomS fitsDS) (after_room roomT fitsDT) fitsS fitsT
    rw [Libc.count, Libc.count]
    refine ⟨Nat.add_le_add le les, fun same => ⟨first (by omega), rest (by omega)⟩⟩

/-! ## The characters -/

theorem Independent.fits (independent : Independent s t ds arg) (fits : Fits t ds arg) :
    Fits s ds arg := by
  induction ds generalizing s t arg with
  | nil => trivial
  | cons d ds ih =>
    obtain ⟨first, rest⟩ := independent
    obtain ⟨⟨short, bounded⟩, enough, fits⟩ := fits
    refine ⟨⟨short, ?_⟩, enough, ih rest fits⟩
    intro c ival tail number given w padTo
    rw [(first c ival tail number given).1] at padTo
    exact bounded c ival tail number given w padTo

/-- Where one buffer has marks, the other one holds the same characters. -/
def Agree (t : Shape) (l k : Locals) : Prop := ∀ j, t.marks j = true → l.buf j = k.buf j

theorem Agree.print (agree : Agree t l k) (alike : s.padTo c ival = t.padTo c ival) {j : Nat}
    (mark : (t.print c ival).marks j = true) :
    writeAt 0 (s.front c ival) l.buf j = writeAt 0 (t.front c ival) k.buf j := by
  have front : s.front c ival = t.front c ival := by rw [Shape.front, Shape.front, alike]
  rw [front]
  by_cases inside : j < (t.front c ival).length
  · rw [writeAt_inside inside, writeAt_inside inside]
  · rw [writeAt_behind (Nat.not_lt.mp inside), writeAt_behind (Nat.not_lt.mp inside)]
    apply agree
    rw [Shape.front] at inside
    cases padded : t.padTo c ival with
    | some w =>
      have wide := (padTo_eq_some.mp padded).2.2
      rw [padded] at inside
      dsimp only at inside
      rw [List.length_append, List.length_replicate, ← digitCount] at inside
      rw [print_padded padded, Bool.or_eq_true, decide_eq_true_eq] at mark
      exact mark.resolve_left (by omega)
    | none =>
      rw [padded] at inside
      dsimp only at inside
      rw [List.length_append, List.length_singleton, ← digitCount] at inside
      rw [print_plain padded, Bool.or_eq_true, Bool.and_eq_true, decide_eq_true_eq] at mark
      exact (mark.resolve_left (by omega)).2

theorem numberText_same (above : Over s t) (reflects : Reflects s l) (reflects' : Reflects t k)
    (agree : Agree t l k) (givenL : l.arg = ival :: arg) (givenK : k.arg = ival :: arg)
    (alike : s.padTo c ival = t.padTo c ival)
    (behind : ∀ w, t.padTo c ival = some w → s.gapBehind w = t.gapBehind w)
    (fits : ∀ w, t.padTo c ival = some w → w < bufSize) :
    ∃ l' k' cs, numberText c l = some (l', cs) ∧ numberText c k = some (k', cs) ∧
      Reflects (s.print c ival) l' ∧ Reflects (t.print c ival) k' ∧ Agree (t.print c ival) l' k' ∧
      l'.arg = arg ∧ k'.arg = arg := by
  rw [← alike] at fits
  obtain ⟨l', m, runL, reflectsL, restL, gapS, bufL⟩ := numberText_some reflects givenL fits
  rw [alike] at fits
  obtain ⟨k', n, runK, reflectsK, restK, gapT, bufK⟩ := numberText_some reflects' givenK fits
  have agree' : Agree (t.print c ival) l' k' := by
    intro j mark
    rw [bufL, bufK]
    exact agree.print alike mark
  obtain rfl : m = n := (above.gap_eq_iff gapS gapT).mpr ⟨alike, behind⟩
  have same : (List.range m).map l'.buf = (List.range m).map k'.buf := by
    apply List.map_congr_left
    intro j inside
    apply agree'
    have mark := (firstIndex_eq_some.mp gapT).2.2 j (List.mem_range.mp inside)
    rwa [Bool.not_eq_false'] at mark
  rw [same] at runL
  exact ⟨l', k', _, runL, runK, reflectsL, reflectsK, agree', restL, restK⟩

theorem emit_same (text : Word → CString) (above : Over s t) (reflects : Reflects s l) (reflects' : Reflects t k)
    (agree : Agree t l k) (args : l.arg = k.arg) (fits : d.Fits t k.arg)
    (enough : d.needs ≤ k.arg.length) (independent : IndependentAt s t d k.arg) :
    ∃ l' k' cs, d.emit text l = some (l', cs) ∧ d.emit text k = some (k', cs) ∧
      Reflects (s.after d k.arg) l' ∧ Reflects (t.after d k.arg) k' ∧
      Agree (t.after d k.arg) l' k' ∧ l'.arg = k.arg.drop d.needs ∧ k'.arg = k.arg.drop d.needs := by
  cases number : d.number with
  | none =>
    obtain ⟨cs, run, _⟩ := emit_other text s number enough
    rw [after_other number, after_other number]
    exact ⟨_, _, cs, run l args, run k rfl, { reflects with }, { reflects' with }, agree, rfl, rfl⟩
  | some c =>
    rw [needs_number number] at enough ⊢
    obtain ⟨ival, arg, given⟩ := List.exists_cons_of_length_pos enough
    obtain ⟨alike, behind⟩ := independent c ival arg number given
    have agreeEntered : Agree (t.enter d) (l.enter d) (k.enter d) := by
      intro j mark
      rw [enter_marks] at mark
      rw [enter_buf, enter_buf]
      exact agree j mark
    have behindEntered : ∀ w, (t.enter d).padTo c ival = some w →
        (s.enter d).gapBehind w = (t.enter d).gapBehind w := by
      simpa only [Shape.gapBehind, enter_marks] using behind
    obtain ⟨l', k', cs, runL, runK, reflectsL, reflectsK, agree', restL, restK⟩ :=
      numberText_same above.enter reflects.enter reflects'.enter agreeEntered
        ((enter_arg.trans args).trans given) (enter_arg.trans given) alike behindEntered
        (fits.2 c ival arg number given)
    rw [given, after_number number, after_number number, List.drop_one, List.tail_cons]
    exact ⟨l', k', cs, (emit_number number fits.1).trans runL, (emit_number number fits.1).trans runK,
      reflectsL, reflectsK, agree', restL, restK⟩

theorem emits_same (text : Word → CString) (above : Over s t) (reflects : Reflects s l) (reflects' : Reflects t k)
    (agree : Agree t l k) (args : l.arg = k.arg) (fits : Fits t ds k.arg)
    (independent : Independent s t ds k.arg) :
    ∃ l' k' cs, emits text ds l = some (l', cs) ∧ emits text ds k = some (k', cs) := by
  induction ds generalizing s t l k with
  | nil => exact ⟨l, k, [], rfl, rfl⟩
  | cons d ds ih =>
    obtain ⟨first, rest⟩ := independent
    obtain ⟨fitsD, enough, fits⟩ := fits
    obtain ⟨l₁, k₁, cs₁, runL, runK, reflectsL, reflectsK, agree₁, restL, restK⟩ :=
      emit_same text above reflects reflects' agree args fitsD enough first
    rw [← restK] at fits rest
    obtain ⟨l₂, k₂, cs₂, runsL, runsK⟩ :=
      ih above.after reflectsL reflectsK agree₁ (restL.trans restK.symm) fits rest
    refine ⟨l₂, k₂, cs₁ ++ cs₂, ?_, ?_⟩
    · rw [emits, runL, Option.bind_some, runsL]
      rfl
    · rw [emits, runK, Option.bind_some, runsK]
      rfl

theorem shownBy_eq (valid : ∀ d ∈ ds, d.Valid) {mem : Mem} {chars : List Byte} :
    shownBy text (ds.flatMap Directive.text) arg mem = some chars ↔
      ∃ l, emits text ds (.start arg) = some (l, chars) := by
  rw [shownBy, vsprintf_stream valid, Option.map_eq_some_iff]
  constructor
  · rintro ⟨⟨l, cs⟩, run, rfl⟩
    exact ⟨l, run⟩
  · rintro ⟨l, run⟩
    exact ⟨(l, chars), run, rfl⟩

/-- Behind the first format its arguments are used up, and the second one starts from its shape. -/
theorem emits_behind (text : Word → CString) (fits : Fits .start ds₁ arg)
    (matching : arg.length = (ds₁.map Directive.needs).sum) (ds₂ : List Directive) (more : List Word) :
    ∃ l chars, emits text ds₁ (.start arg) = some (l, chars) ∧
      Reflects (Shape.start.afterAll ds₁ arg) { l with arg := more } ∧
      emits text (ds₁ ++ ds₂) (.start (arg ++ more)) =
        (emits text ds₂ { l with arg := more }).map fun q => (q.1, chars ++ q.2) := by
  obtain ⟨l, chars, run, reflects, rest, _⟩ := emits_some text reflects_start fits
  have used : l.arg = [] := by
    rw [rest, ← matching]
    exact List.drop_length
  have extended := emits_more more run
  rw [used, List.nil_append] at extended
  refine ⟨l, chars, run, { reflects with }, ?_⟩
  rw [emits_append]
  exact congrArg (Option.bind · _) extended

/-- Two formats show together what they show alone if and only if each stays within the arrays
and the numbers of the second are independent of the first. -/
theorem compositional_iff {arg₁ arg₂ : List Word} {mem : Mem} (valid₁ : ∀ d ∈ ds₁, d.Valid)
    (valid₂ : ∀ d ∈ ds₂, d.Valid) (matching : arg₁.length = (ds₁.map Directive.needs).sum) :
    Compositional text ds₁ ds₂ arg₁ arg₂ mem ↔ Fits .start ds₁ arg₁ ∧ Fits .start ds₂ arg₂ ∧
      Independent (Shape.start.afterAll ds₁ arg₁) .start ds₂ arg₂ := by
  have both : ∀ d ∈ ds₁ ++ ds₂, d.Valid := by
    intro d mem
    exact (List.mem_append.mp mem).elim (valid₁ d) (valid₂ d)
  rw [Compositional, ← List.flatMap_append]
  simp only [shownBy_eq valid₁, shownBy_eq valid₂, shownBy_eq both]
  constructor
  · rintro ⟨chars₁, chars₂, ⟨l₁, run₁⟩, ⟨l₂, run₂⟩, l₃, run₃⟩
    have fits₁ : Fits .start ds₁ arg₁ := emits_fits reflects_start run₁
    have fits₂ : Fits .start ds₂ arg₂ := emits_fits reflects_start run₂
    obtain ⟨l, chars, run, reflects, joint⟩ := emits_behind text fits₁ matching ds₂ arg₂
    obtain ⟨rfl, rfl⟩ := Prod.mk.inj (Option.some.inj (run₁.symm.trans run))
    rw [joint] at run₃
    obtain ⟨⟨l₄, chars₄⟩, run₄, eq⟩ := Option.map_eq_some_iff.mp run₃
    obtain ⟨rfl, same⟩ := Prod.mk.inj eq
    obtain rfl := List.append_cancel_left same
    have fits₄ : Fits (Shape.start.afterAll ds₁ arg₁) ds₂ arg₂ := emits_fits reflects run₄
    refine ⟨fits₁, fits₂, ?_⟩
    apply ((over_start _).count text reflects.room rfl fits₄ fits₂).2
    obtain ⟨_, _, again₂, _, _, length₂⟩ := emits_some text reflects_start fits₂
    obtain ⟨_, _, again₄, _, _, length₄⟩ := emits_some text reflects fits₄
    obtain ⟨_, rfl⟩ := Prod.mk.inj (Option.some.inj (again₂.symm.trans run₂))
    obtain ⟨_, same⟩ := Prod.mk.inj (Option.some.inj (again₄.symm.trans run₄))
    exact length₂.symm.trans (same ▸ length₄)
  · rintro ⟨fits₁, fits₂, independent⟩
    obtain ⟨l, chars, run, reflects, joint⟩ := emits_behind text fits₁ matching ds₂ arg₂
    have agree : Agree .start { l with arg := arg₂ } (.start arg₂) := fun _ mark => by cases mark
    obtain ⟨l', k', chars₂, behind, alone⟩ :=
      emits_same text (over_start _) reflects reflects_start agree rfl fits₂ independent
    refine ⟨chars, chars₂, ⟨l, run⟩, ⟨k', alone⟩, l', ?_⟩
    rw [joint, behind]
    rfl

/-- "%d" with 5, and behind it "a%04x%d" with 0xAB and 5. -/
theorem compositional_sample :
    Compositional noStrings [.plain (chr 'd')] sampleFormat [5] [0xAB, 5] (fun _ => 0) ∧
      Fits .start [.plain (chr 'd')] [5] ∧ Fits .start sampleFormat [0xAB, 5] ∧
        Independent (Shape.start.afterAll [.plain (chr 'd')] [5]) .start sampleFormat [0xAB, 5] := by
  have shown : Compositional noStrings [.plain (chr 'd')] sampleFormat [5] [0xAB, 5] (fun _ => 0) :=
    ⟨[chr '5'], [chr 'a', chr '0', chr '0', chr 'a', chr 'b', chr '0', chr '0', chr '0', chr '5'],
      by decide +kernel, by decide +kernel, by decide +kernel⟩
  refine ⟨shown, (compositional_iff ?_ sampleFormat_valid (by decide)).mp shown⟩
  rw [List.forall_mem_singleton]
  exact ⟨by decide, by decide⟩

/-- "%08x" fills up the number of the "%d" behind it. -/
theorem width_persists : ¬∀ (text : Word → CString) (ds₁ ds₂ : List Directive) (arg₁ arg₂ : List Word)
    (mem : Mem), (∀ d ∈ ds₁, d.Valid) → (∀ d ∈ ds₂, d.Valid) → (∀ d ∈ ds₁, d.WidthFits) →
    (∀ d ∈ ds₂, d.WidthFits) → arg₁.length = (ds₁.map Directive.needs).sum →
    arg₂.length = (ds₂.map Directive.needs).sum → Compositional text ds₁ ds₂ arg₁ arg₂ mem := by
  intro claim
  obtain ⟨chars₁, chars₂, shown₁, shown₂, together⟩ :=
    claim noStrings [.padded [chr '8'] (chr 'x')] [.plain (chr 'd')] [0] [5] (fun _ => 0)
      (by rw [List.forall_mem_singleton]; exact ⟨by decide, by decide⟩)
      (by rw [List.forall_mem_singleton]; exact ⟨by decide, by decide⟩)
      (by rw [List.forall_mem_singleton]; exact ⟨by decide, by decide⟩)
      (by rw [List.forall_mem_singleton]; trivial) rfl rfl
  have alone : shownBy noStrings ([Directive.plain (chr 'd')].flatMap Directive.text) [5]
      (fun _ => 0) = some [chr '5'] := by
    decide +kernel
  have first : shownBy noStrings ([Directive.padded [chr '8'] (chr 'x')].flatMap Directive.text) [0]
      (fun _ => 0) = some (List.replicate 8 (chr '0')) := by
    decide +kernel
  have both : shownBy noStrings ([Directive.padded [chr '8'] (chr 'x')].flatMap Directive.text ++
      [Directive.plain (chr 'd')].flatMap Directive.text) ([0] ++ [5]) (fun _ => 0) =
        some (List.replicate 15 (chr '0') ++ [chr '5']) := by
    decide +kernel
  obtain rfl := Option.some.inj (shown₁.symm.trans first)
  obtain rfl := Option.some.inj (shown₂.symm.trans alone)
  exact absurd (together.symm.trans both) (by decide)

end X86Os.Libc
