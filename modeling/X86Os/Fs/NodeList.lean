import X86Os.Fs.Isolation
import X86Os.Library.PointerList

/-!
# The node list of the memory file system

Every call keeps the nodes it finds and puts at most one behind them, for a path
that no node before it shows. So the list only grows, in the order in which the
nodes were made, and no path has two nodes. A lookup may take the node of a
longer path; but that node, too, stays in its place.
-/

namespace X86Os.Fs

open Library.Memory Library.PointerList Libc Vfs
open Scheduler (bind_ok)
set_option autoImplicit false

/-- The copies of `strdup` have a zero behind them. -/
def Surroundings.Terminated (env : Surroundings) : Prop := ∀ i, env.behindPath i 0 = 0

/-- The `int` of `memcpy` can hold the size of the block. -/
def FileCall.Fits : FileCall → Prop
  | .write w => w.stop < 2 ^ 31
  | .mkdir _ _ => True

def links (fs : Tmpfs) (node : Option Nat) : Option Nat :=
  node.bind fun i => fs[i]?.bind TmpfsNode.next

structure NodeList (fs : Tmpfs) : Prop where
  chain : Chain (links fs) none (some 0) ((List.range fs.length).map some)
  back : ∀ (i j : Nat) (n : TmpfsNode), fs[i]? = some n → n.next = some j →
    ∃ m, fs[j]? = some m ∧ m.prev = some i
  root : ∃ n, fs[0]? = some n ∧ n.storedPath = [] ∧ n.isDir = true
  distinct : ∀ (i j : Nat) (n m : TmpfsNode), fs[i]? = some n → fs[j]? = some m →
    n.storedPath = m.storedPath → i = j

def Grows (fs fs' : Tmpfs) : Prop :=
  ∀ (i : Nat) (n : TmpfsNode), fs[i]? = some n →
    ∃ n', fs'[i]? = some n' ∧ n'.storedPath = n.storedPath ∧ n'.isDir = n.isDir

def Begun (fs : Tmpfs) (p : CString) : Prop :=
  ∃ (i : Nat) (n : TmpfsNode), fs[i]? = some n ∧ p.bytes <+: n.storedPath

def Findable (fs : Tmpfs) (p : CString) : Prop :=
  ∀ env : Surroundings, env.Terminated → ∃ i, tmpfsFindNode env fs p = .ok (some i)

variable {env : Surroundings} {fs fs' fs₁ fs₂ : Tmpfs} {p path : CString} {n n' : TmpfsNode}
variable {i target : Nat} {off : Word} {buf : List Byte} {c : FileCall} {cs before after : List FileCall}

namespace Grows

theorem refl (fs : Tmpfs) : Grows fs fs := fun _ n here => ⟨n, here, rfl, rfl⟩

theorem trans (first : Grows fs fs₁) (second : Grows fs₁ fs₂) : Grows fs fs₂ := by
  intro i n here
  obtain ⟨n₁, here₁, path, kind⟩ := first i n here
  obtain ⟨n₂, here₂, path', kind'⟩ := second i n₁ here₁
  exact ⟨n₂, here₂, path'.trans path, kind'.trans kind⟩

end Grows

theorem Outcome.grows (outcome : Outcome env fs path fs' target) : Grows fs fs' := by
  intro i n here
  obtain ⟨n', here', same, _⟩ := outcome.old i n here
  exact ⟨n', here', same.storedPath, same.isDir⟩

/-! ## What the list looks like -/

theorem Linked.segment (linked : Linked fs) {k : Nat} (inside : k ≤ fs.length) :
    Segment (links fs) (some 0) ((List.range k).map some)
      (if k < fs.length then some k else none) := by
  induction k with
  | zero => exact (if_pos linked.root).symm
  | succ k ih =>
    obtain ⟨n, here⟩ := inBounds_get inside
    have before := ih (Nat.le_of_succ_le inside)
    rw [if_pos (Nat.lt_of_succ_le inside)] at before
    rw [List.range_succ, List.map_append]
    refine segment_append.mpr ⟨some k, before, rfl, ?_⟩
    show (fs[k]?.bind TmpfsNode.next) = _
    rw [here]
    exact linked.next k n here

theorem Linked.chain (linked : Linked fs) :
    Chain (links fs) none (some 0) ((List.range fs.length).map some) := by
  refine ⟨?_, by simp⟩
  have whole := linked.segment (Nat.le_refl _)
  rwa [if_neg (Nat.lt_irrefl _)] at whole

theorem Linked.back (linked : Linked fs) {j : Nat} (here : fs[i]? = some n)
    (next : n.next = some j) : ∃ m, fs[j]? = some m ∧ m.prev = some i := by
  rw [linked.next i n here] at next
  split at next
  next inside =>
    cases next
    obtain ⟨m, here'⟩ := inBounds_get inside
    exact ⟨m, here', linked.prev _ m here'⟩
  next => cases next

theorem NodeList.init : NodeList tmpfsInit := by
  refine ⟨linked_init.chain, fun _ _ _ => linked_init.back, ⟨_, rfl, rfl, rfl⟩, ?_⟩
  intro i j n m atI atJ _
  have first := (List.getElem?_eq_some_iff.mp atI).1
  have second := (List.getElem?_eq_some_iff.mp atJ).1
  have length : tmpfsInit.length = 1 := rfl
  omega

theorem NodeList.step (ok : NodeList fs) (outcome : Outcome env fs path fs' target) :
    NodeList fs' := by
  refine ⟨outcome.linked.chain, fun _ _ _ => outcome.linked.back, ?_, ?_⟩
  · obtain ⟨n, here, named, dir⟩ := ok.root
    obtain ⟨n', here', stored, kind⟩ := outcome.grows 0 n here
    exact ⟨n', here', stored.trans named, kind.trans dir⟩
  · -- a node with the path of the call would have been found
    have apart : ∀ (k : Nat) (m m' : TmpfsNode), fs[k]? = some m → m'.path = path.bytes →
        (∀ j, ¬ Matches env fs path j) → m.storedPath ≠ m'.storedPath := by
      intro k m m' here copied none same
      exact none k (matches_own here (same.trans (storedPath_copy copied)))
    intro i j n m atI atJ same
    obtain ⟨n₀, oldI, keptI⟩ | ⟨rfl, copied, _, none⟩ := outcome.node atI
    · obtain ⟨m₀, oldJ, keptJ⟩ | ⟨rfl, copied, _, none⟩ := outcome.node atJ
      · exact ok.distinct i j n₀ m₀ oldI oldJ
          (keptI.storedPath.symm.trans (same.trans keptJ.storedPath))
      · exact absurd (keptI.storedPath.symm.trans same) (apart i n₀ m oldI copied none)
    · obtain ⟨m₀, oldJ, keptJ⟩ | ⟨rfl, _⟩ := outcome.node atJ
      · exact absurd (keptJ.storedPath.symm.trans same.symm) (apart j m₀ n oldJ copied none)
      · rfl

/-! ## Which paths are found -/

/-- With a terminated copy the comparison sees the stored path and nothing else. -/
theorem shownPath_begins (terminated : env.Terminated) :
    p.bytes <+: shownPath env i n p ↔ p.bytes <+: n.storedPath := by
  constructor
  · rintro ⟨rest, shown⟩
    have proper : ∀ b ∈ p.bytes, decide (b ≠ 0) = true := by
      intro b hb
      rw [decide_eq_true_iff]
      rintro rfl
      exact p.terminated hb
    have begins : p.bytes <+: (shownPath env i n p).takeWhile (· ≠ 0) := by
      rw [← shown, List.takeWhile_append_of_pos proper]
      exact List.prefix_append ..
    rw [shownPath, List.takeWhile_append] at begins
    split at begins
    next whole =>
      have stored : n.storedPath = n.path :=
        storedPath_begins.eq_of_length whole
      cases length : strlen p with
      | zero =>
        rw [List.length_eq_zero_iff.mp length]
        exact List.nil_prefix
      | succ k =>
        rw [length, List.range_succ_eq_map, List.map_cons, terminated i,
          List.takeWhile_cons_of_neg (by simp), List.append_nil] at begins
        rwa [stored]
    next => exact begins
  · intro begins
    exact begins.trans (storedPath_begins.trans (List.prefix_append ..))

theorem findable_of_begins (linked : Linked fs) (here : fs[i]? = some n)
    (begins : p.bytes <+: n.storedPath) : Findable fs p := by
  intro env terminated
  have hit : Matches env fs p i :=
    ⟨n, here, strcmpPath_eq_false.mpr ((shownPath_begins terminated).mpr begins)⟩
  obtain ⟨r, found, first⟩ := find_first env p linked
  cases r with
  | some k => exact ⟨k, found⟩
  | none => exact absurd hit (first i (Nat.zero_le i))

theorem Outcome.begun (outcome : Outcome env fs path fs' target) (terminated : env.Terminated) :
    Begun fs' path := by
  obtain ⟨⟨n, here, same⟩, _⟩ | ⟨_, _, _, n, here, copied, _⟩ := outcome.found
  · obtain ⟨n', here', stored, _⟩ := outcome.grows target n here
    refine ⟨target, n', here', ?_⟩
    rw [stored]
    exact (shownPath_begins terminated).mp (strcmpPath_eq_false.mp same)
  · refine ⟨target, n, here, ?_⟩
    rw [storedPath_copy copied]

theorem Grows.begun (grows : Grows fs fs') (begun : Begun fs p) : Begun fs' p := by
  obtain ⟨i, n, here, begins⟩ := begun
  obtain ⟨n', here', stored, _⟩ := grows i n here
  refine ⟨i, n', here', ?_⟩
  rwa [stored]

/-! ## Runs -/

theorem performCalls_append :
    performCalls (before ++ after) fs = (performCalls before fs).bind (performCalls after) := by
  induction before generalizing fs with
  | nil => rfl
  | cons c before ih =>
    show (c.perform fs >>= performCalls (before ++ after)) = (c.perform fs >>= _).bind _
    cases c.perform fs with
    | error e => rfl
    | ok fs₁ => exact ih

theorem performCalls_returns (ok : Lengthless fs) (fits : ∀ c ∈ cs, c.Fits) :
    ∃ fs', performCalls cs fs = .ok fs' := by
  induction cs generalizing fs with
  | nil => exact ⟨fs, rfl⟩
  | cons c cs ih =>
    obtain ⟨fs₁, done⟩ : ∃ fs₁, c.perform fs = .ok fs₁ := by
      have small := fits c List.mem_cons_self
      cases c with
      | write w => exact ok.write_returns w.env w.path small
      | mkdir path env =>
        obtain ⟨fs₁, _, made, _⟩ := mkdir_outcome env path ok.linked
        exact ⟨fs₁, made⟩
    obtain ⟨target, outcome⟩ := call_outcome ok.linked done
    obtain ⟨fs', rest⟩ := ih (outcome.lengthless ok) fun c hc => fits c (List.mem_cons_of_mem _ hc)
    refine ⟨fs', ?_⟩
    rw [performCalls, done]
    exact rest

theorem performCalls_nodeList (linked : Linked fs) (ok : NodeList fs)
    (run : performCalls cs fs = .ok fs') : NodeList fs' ∧ Grows fs fs' ∧
      ((∀ c ∈ cs, c.env.Terminated) → ∀ c ∈ cs, Begun fs' c.path) := by
  induction cs generalizing fs with
  | nil =>
    cases run
    exact ⟨ok, .refl _, fun _ _ hc => absurd hc List.not_mem_nil⟩
  | cons c cs ih =>
    obtain ⟨fs₁, first, rest⟩ := bind_ok run
    obtain ⟨target, outcome⟩ := call_outcome linked first
    obtain ⟨list, grows, begun⟩ := ih outcome.linked (ok.step outcome) rest
    refine ⟨list, outcome.grows.trans grows, ?_⟩
    intro terminated d hd
    obtain rfl | hd := List.mem_cons.mp hd
    · exact grows.begun (outcome.begun (terminated _ List.mem_cons_self))
    · exact begun (fun e he => terminated e (List.mem_cons_of_mem _ he)) d hd

/-- Whatever is written and made, the list hangs together, only grows, has one node for a path
and finds every path it was given. -/
theorem node_list_kept (terminated : ∀ c ∈ cs, c.env.Terminated) :
    ((∀ c ∈ cs, c.Fits) → ∃ fs, performCalls cs tmpfsInit = .ok fs) ∧
    ∀ fs, performCalls cs tmpfsInit = .ok fs →
      NodeList fs ∧ (∀ c ∈ cs, Findable fs c.path) ∧
      ∀ before after, cs = before ++ after →
        ∃ fs₁, performCalls before tmpfsInit = .ok fs₁ ∧ Grows fs₁ fs := by
  refine ⟨performCalls_returns lengthless_init, ?_⟩
  intro fs run
  have linked := performCalls_linked linked_init run
  obtain ⟨list, _, begun⟩ := performCalls_nodeList linked_init .init run
  refine ⟨list, ?_, ?_⟩
  · intro c hc
    obtain ⟨i, n, here, begins⟩ := begun terminated c hc
    exact findable_of_begins linked here begins
  · rintro before after rfl
    rw [performCalls_append] at run
    obtain ⟨fs₁, first, rest⟩ := bind_ok run
    have linked₁ := performCalls_linked linked_init first
    obtain ⟨list₁, _⟩ := performCalls_nodeList linked_init .init first
    exact ⟨fs₁, first, (performCalls_nodeList linked₁ list₁ rest).2.1⟩

/-- A lookup of `f` is answered with the file `fx`, so no directory `f` is made. -/
theorem node_list_kept_long :
    (∀ c ∈ longPathFirst ++ [.mkdir pathF quietSurroundings], c.env.Terminated) ∧
    ∃ fs, performCalls (longPathFirst ++ [.mkdir pathF quietSurroundings]) tmpfsInit = .ok fs ∧
      NodeList fs ∧ Findable fs pathF ∧ fs.length = 2 := by
  have terminated : ∀ c ∈ longPathFirst ++ [.mkdir pathF quietSurroundings], c.env.Terminated := by
    intro c hc
    obtain rfl | rfl : c = .write ⟨pathFx, 0, [0x41], quietSurroundings⟩ ∨
        c = .mkdir pathF quietSurroundings := by simpa [longPathFirst] using hc
    all_goals exact fun _ => rfl
  obtain ⟨fs, run⟩ : ∃ fs, performCalls (longPathFirst ++ [.mkdir pathF quietSurroundings])
    tmpfsInit = .ok fs := ⟨_, rfl⟩
  obtain ⟨list, findable, _⟩ := (node_list_kept terminated).2 fs run
  refine ⟨terminated, fs, run, list, findable (.mkdir pathF quietSurroundings) (by simp), ?_⟩
  cases run
  rfl

end X86Os.Fs
