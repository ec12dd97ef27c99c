import ProximitySearch.Proofs.Walk

/-!
# What a skip scan shows

A skip scan over a source that serves some entries serves those of them whose qualifier is a candidate
(`Source.skipScan_serves`).

While it searches, the source below shows what is left of the entries of the range, and a jump leaves out a
stretch of them that holds no candidate (`reseek_rest`). Each jump makes the rest shorter, so the search
ends within as many rounds as there are entries, and the rounds it may take beyond these make no
difference (`settle_spec`).
-/

namespace ProximitySearch.Source

open Std

variable {σ : Type} {below : Source σ} {entries : Entries} {shown : KeyRange → FamilyFilter → Key → Bool}
  {space : SearchSpace} {family : Bytes}

/-- Entries that the source below shows of a range. -/
def belowView (entries : Entries) (shown : KeyRange → FamilyFilter → Key → Bool) (family : Bytes)
    (range : KeyRange) : List Entry :=
  entries.toList.filter fun e => !range.beforeStart e.1 && shown range (.only family) e.1

/-- What a scan keeps of them: candidates up to the end of the range. -/
def scanKeeps (space : SearchSpace) (range : KeyRange) (e : Entry) : Bool :=
  !range.afterEnd e.1 && decide (e.1.qualifier ∈ space)

theorem belowView_ascending (range : KeyRange) : Ascending (belowView entries shown family range) :=
  entries.ascending.sublist List.filter_sublist

theorem length_belowView_le (entries : Entries) (shown : KeyRange → FamilyFilter → Key → Bool) (family : Bytes)
    (range : KeyRange) : (belowView entries shown family range).length ≤ entries.size :=
  List.length_filter_le _ _

/-! ## One jump -/

theorem not_mem_of_before_jump {range : KeyRange} {e d : Entry} {rest : List Entry}
    (hsuffix : e :: rest <:+ belowView entries shown family range) (hout : e.1.qualifier ∉ space)
    (hd : d ∈ e :: rest) (hlt : compare d.1 (space.jumpTarget e.1) = .lt) : d.1.qualifier ∉ space := by
  have hsorted : Ascending (e :: rest) := (belowView_ascending range).sublist hsuffix.sublist
  rcases List.mem_cons.mp hd with rfl | hd
  · exact hout
  · exact SearchSpace.not_mem_of_lt_jumpTarget ((List.pairwise_cons.mp hsorted).1 d hd) hlt

/-- What the source below shows after a jump: the rest from the target on. -/
theorem reseek_rest
    (hshown : ∀ range first filter key, shown (KeyRange.withStart range first) filter key = shown range filter key)
    {range : KeyRange} {e : Entry} {rest : List Entry} {target : Key}
    (hsuffix : e :: rest <:+ belowView entries shown family range) (htarget : compare e.1 target = .lt) :
    belowView entries shown family (range.withStart target) = rest.filter fun d => !(compare d.1 target).isLT := by
  obtain ⟨front, hview⟩ := hsuffix
  have hsorted : Ascending (front ++ e :: rest) := hview ▸ belowView_ascending range
  obtain ⟨-, hrest, hcross⟩ := List.pairwise_append.mp hsorted
  have he : !range.beforeStart e.1 && shown range (.only family) e.1 := by
    have hmem : e ∈ belowView entries shown family range := hview ▸ by simp
    exact (List.mem_filter.mp hmem).2
  -- what is in the range from the target on is in the range
  have hfilter : belowView entries shown family (range.withStart target) =
      (belowView entries shown family range).filter fun d => !(compare d.1 target).isLT := by
    unfold belowView
    rw [List.filter_filter]
    refine List.filter_congr fun d _ => ?_
    rw [hshown, KeyRange.beforeStart_withStart]
    cases hd : (compare d.1 target).isLT with
    | true => rfl
    | false =>
      have hge : (compare d.1 target).isGE := by
        cases hc : compare d.1 target <;> simp_all
      have hlt : compare e.1 d.1 = .lt := TransCmp.lt_of_lt_of_isLE htarget (OrientedCmp.isGE_iff_isLE.mp hge)
      have hstart : range.beforeStart d.1 = false := by
        by_contra hbefore
        have := KeyRange.beforeStart_of_lt hlt (by simpa using hbefore)
        simp [this] at he
      simp [hstart]
  rw [hfilter, ← hview, List.filter_append, List.filter_cons_of_neg (by simp [htarget]), List.filter_eq_nil_iff.mpr,
    List.nil_append]
  intro d hd
  have := TransCmp.lt_trans (hcross d hd e (by simp)) htarget
  simp [this]

theorem filter_scanKeeps_eq_nil (space : SearchSpace) {range : KeyRange} {target : Key} {l : List Entry}
    (hend : range.afterEnd target = true) (hbefore : ∀ d ∈ l, compare d.1 target = .lt → d.1.qualifier ∉ space) :
    l.filter (scanKeeps space range) = [] := by
  refine List.filter_eq_nil_iff.mpr fun d hd => ?_
  cases hc : compare d.1 target with
  | lt => simp [scanKeeps, hbefore d hd hc]
  | eq => simp [scanKeeps, LawfulEqCmp.eq_of_compare hc, hend]
  | gt => simp [scanKeeps, KeyRange.afterEnd_of_lt (OrientedCmp.lt_of_gt hc) hend]

theorem jump_rest {rest : List Entry} (hsorted : Ascending rest) (target : Key) :
    (rest.filter fun d => !(compare d.1 target).isLT).length ≤ rest.length ∧
      (rest.filter fun d => !(compare d.1 target).isLT) <:+ rest := by
  have hdown : rest.Pairwise fun a b => (compare b.1 target).isLT = true → (compare a.1 target).isLT = true := by
    refine hsorted.imp fun hlt hb => ?_
    simp only [Ordering.isLT_iff_eq_lt] at hb ⊢
    exact TransCmp.lt_trans hlt hb
  rw [← dropWhile_eq_filter hdown]
  exact ⟨(List.dropWhile_suffix _).length_le, List.dropWhile_suffix _⟩

theorem filter_scanKeeps_jump (range : KeyRange) {e : Entry} {rest : List Entry} {target : Key}
    (he : e.1.qualifier ∉ space) (hskipped : ∀ d ∈ rest, compare d.1 target = .lt → d.1.qualifier ∉ space) :
    (e :: rest).filter (scanKeeps space range) =
      (rest.filter fun d => !(compare d.1 target).isLT).filter (scanKeeps space range) := by
  rw [List.filter_cons_of_neg (by simp [scanKeeps, he]), List.filter_filter]
  refine List.filter_congr fun d hd => ?_
  cases hc : compare d.1 target with
  | lt => simp [scanKeeps, hskipped d hd hc]
  | eq => simp
  | gt => simp

/-! ## The search -/

/-- A scan whose search has ended: from `s` on it shows `out`. -/
def Settled (below : Source σ) (entries : Entries) (shown : KeyRange → FamilyFilter → Key → Bool)
    (space : SearchSpace) (family : Bytes) (s : SkipState σ) (out : List Entry) : Prop :=
  s.exhausted = true ∧ out = [] ∨
    s.exhausted = false ∧ ∃ rest, rest <:+ belowView entries shown family s.range ∧ below.Shows s.below rest ∧
      out = rest.filter (scanKeeps space s.range) ∧ ∀ e ∈ rest.head?, scanKeeps space s.range e = true

/-- A search ends with the candidates of the rest on show, and with the same reply however many rounds more than
members of the rest it may take. -/
theorem settle_spec (h : below.Serves entries shown) (space : SearchSpace) {s : SkipState σ} {rest : List Entry}
    (hopen : s.exhausted = false) (hsuffix : rest <:+ belowView entries shown family s.range)
    (hshows : below.Shows s.below rest) :
    ∃ reply, (∀ rounds, rest.length < rounds → settle below space family rounds s = reply) ∧ reply.fault = none ∧
      reply.state.range = s.range ∧
      Settled below entries shown space family reply.state (rest.filter (scanKeeps space s.range)) := by
  induction hlen : rest.length using Nat.strongRecOn generalizing rest s with
  | _ n ih =>
  have hround {rounds : Nat} (hn : n < rounds) : ∃ m, rounds = m + 1 ∧ n ≤ m := ⟨rounds - 1, by omega, by omega⟩
  have htop := hshows.top
  cases rest with
  | nil =>
    refine ⟨⟨s, none⟩, fun rounds hn => ?_, rfl, rfl, .inr ⟨hopen, [], hsuffix, hshows, rfl, by simp⟩⟩
    obtain ⟨m, rfl, -⟩ := hround hn
    rw [List.head?_nil] at htop
    simp only [settle, htop]
  | cons e rest =>
    rw [List.head?_cons] at htop
    have hsorted : Ascending (e :: rest) := (belowView_ascending s.range).sublist hsuffix.sublist
    by_cases hafter : s.range.afterEnd e.1 = true
    · -- past the end of the range, and so is all that follows
      have hnone := filter_scanKeeps_eq_nil (l := e :: rest) space hafter fun d hd hlt => by
        rcases List.mem_cons.mp hd with rfl | hd
        · simp at hlt
        · simp [OrientedCmp.gt_of_lt ((List.pairwise_cons.mp hsorted).1 d hd)] at hlt
      refine ⟨⟨{ s with exhausted := true }, none⟩, fun rounds hn => ?_, rfl, rfl, .inl ⟨rfl, hnone⟩⟩
      obtain ⟨m, rfl, -⟩ := hround hn
      simp only [settle, htop, hafter, if_true]
    by_cases hmem : e.1.qualifier ∈ space
    · have hkeeps : scanKeeps space s.range e = true := by simp [scanKeeps, hafter, hmem]
      refine ⟨⟨s, none⟩, fun rounds hn => ?_, rfl, rfl,
        .inr ⟨hopen, e :: rest, hsuffix, hshows, rfl, by simpa using hkeeps⟩⟩
      obtain ⟨m, rfl, -⟩ := hround hn
      simp only [settle, htop, hafter, hmem, if_true, if_false, Bool.false_eq_true]
    -- neither: what comes before the target of the jump is not kept
    have hlt := SearchSpace.lt_jumpTarget space e.1
    have hskipped : ∀ d ∈ e :: rest, compare d.1 (space.jumpTarget e.1) = .lt → d.1.qualifier ∉ space :=
      fun d hd hbefore => not_mem_of_before_jump hsuffix hmem hd hbefore
    by_cases hend : s.range.afterEnd (space.jumpTarget e.1) = true
    · have hnone := filter_scanKeeps_eq_nil space hend hskipped
      refine ⟨⟨{ s with exhausted := true }, none⟩, fun rounds hn => ?_, rfl, rfl, .inl ⟨rfl, hnone⟩⟩
      obtain ⟨m, rfl, -⟩ := hround hn
      simp only [settle, htop, hafter, hmem, hend, if_true, if_false, Bool.false_eq_true]
    · have hseek := h.shows_seek (s.range.withStart (space.jumpTarget e.1)) (.only family) s.below
      have hfault := h.fault (s.range.withStart (space.jumpTarget e.1)) (.only family) s.below
      change below.Shows _ (belowView entries shown family _) at hseek
      rw [reseek_rest h.shown_withStart hsuffix hlt] at hseek
      obtain ⟨hshorter, hsub⟩ := jump_rest (List.pairwise_cons.mp hsorted).2 (space.jumpTarget e.1)
      have hkept := filter_scanKeeps_jump s.range hmem fun d hd => hskipped d (List.mem_cons_of_mem _ hd)
      obtain ⟨reply, hsettle, hnone, hrange, hsettled⟩ := ih _ (by simp at hlen; omega)
        (s := ⟨(below.seek (s.range.withStart (space.jumpTarget e.1)) (.only family) s.below).state, s.range,
          s.exhausted, s.reseeks + 1⟩)
        hopen (hsub.trans ((List.suffix_cons e rest).trans hsuffix)) hseek rfl
      refine ⟨reply, fun rounds hn => ?_, hnone, hrange, hkept ▸ hsettled⟩
      obtain ⟨m, rfl, hm⟩ := hround hn
      rw [← hsettle m (by simp at hlen; omega)]
      simp only [settle, htop, hafter, hmem, hend, hfault, if_false, Bool.false_eq_true]

/-! ## The scan -/

theorem length_lt_rounds (h : below.Serves entries shown) {range : KeyRange} {rest : List Entry}
    (hsuffix : rest <:+ belowView entries shown family range) : rest.length < below.size + 1 := by
  have := hsuffix.length_le
  have := length_belowView_le entries shown family range
  have := h.size_le
  omega

theorem settled_step (h : below.Serves entries shown) {s : SkipState σ} {out : List Entry}
    (hs : Settled below entries shown space family s out) :
    (below.skipScan space family).top s = out.head? ∧ ((below.skipScan space family).next s).fault = none ∧
      Settled below entries shown space family ((below.skipScan space family).next s).state out.tail := by
  obtain ⟨state, range, exhausted, reseeks⟩ := s
  rcases hs with ⟨rfl, rfl⟩ | ⟨rfl, rest, hsuffix, hshows, rfl, hhead⟩
  · exact ⟨rfl, rfl, .inl ⟨rfl, rfl⟩⟩
  · dsimp only at hsuffix hshows hhead ⊢
    simp only [skipScan, hshows.top, Bool.false_eq_true, if_false, Bool.false_or]
    cases rest with
    | nil => exact ⟨rfl, rfl, .inr ⟨rfl, [], hsuffix, hshows, rfl, by simp⟩⟩
    | cons e rest =>
      have htail : rest <:+ belowView entries shown family range := (List.suffix_cons e rest).trans hsuffix
      obtain ⟨reply, hsettle, hnone, -, hsettled⟩ := settle_spec h space
        (s := ⟨(below.next state).state, range, false, reseeks⟩) rfl htail hshows.next
      rw [List.filter_cons_of_pos (hhead e (by simp))]
      simp only [List.head?_cons, Option.isNone_some, Bool.false_eq_true, if_false, hshows.fault,
        hsettle _ (length_lt_rounds h htail)]
      exact ⟨trivial, hnone, hsettled⟩

theorem shows_of_settled (h : below.Serves entries shown) {s : SkipState σ} {out : List Entry}
    (hs : Settled below entries shown space family s out) : (below.skipScan space family).Shows s out :=
  shows_of_step (Settled below entries shown space family) (fun _ _ hs => settled_step h hs) hs

theorem shows_fresh_skipScan (below : Source σ) (space : SearchSpace) (family : Bytes) :
    (below.skipScan space family).Shows (below.skipScan space family).fresh [] := by
  refine shows_of_step (fun s l => s.exhausted = true ∧ l = []) ?_ ⟨rfl, rfl⟩
  rintro s l ⟨hex, rfl⟩
  simp [skipScan, hex]

theorem settled_seek (h : below.Serves entries shown) (space : SearchSpace) (family : Bytes) (range : KeyRange)
    (filter : FamilyFilter) (s : SkipState σ) :
    ((below.skipScan space family).seek range filter s).fault = none ∧
      Settled below entries shown space family ((below.skipScan space family).seek range filter s).state
        ((belowView entries shown family range).filter (scanKeeps space range)) := by
  simp only [skipScan]
  split
  · next hempty =>
    refine ⟨rfl, .inl ⟨rfl, List.filter_eq_nil_iff.mpr fun e _ => ?_⟩⟩
    have hnot : e.1.qualifier ∉ space := fun hmem => by
      have hmem : e.1.qualifier ∈ SortedSet.toList space := hmem
      rw [List.isEmpty_iff.mp hempty] at hmem
      exact List.not_mem_nil hmem
    simp [scanKeeps, hnot]
  · simp only [h.fault]
    obtain ⟨reply, hsettle, hnone, -, hsettled⟩ := settle_spec h space
      (s := ⟨(below.seek range (.only family) s.below).state, range, false, 0⟩) rfl
      (List.suffix_refl (belowView entries shown family range)) (h.shows_seek range (.only family) s.below)
    rw [hsettle _ (length_lt_rounds h (List.suffix_refl _))]
    exact ⟨hnone, hsettled⟩

theorem settled_of_reached (h : below.Serves entries shown) {s : SkipState σ}
    (hs : (below.skipScan space family).Reached s) : ∃ out, Settled below entries shown space family s out := by
  refine hs.induction (P := fun s => ∃ out, Settled below entries shown space family s out) ?_ ?_
  · intro range filter s
    exact ⟨_, (settled_seek h space family range filter s).2⟩
  · rintro s ⟨out, hout⟩
    exact ⟨out.tail, (settled_step h hout).2.2⟩

/-- A skip scan shows the candidates among what the source below it shows of its own family. -/
theorem skipScan_serves (h : below.Serves entries shown) (space : SearchSpace) (family : Bytes) :
    (below.skipScan space family).Serves entries fun range _ key =>
      shown range (.only family) key && (!range.afterEnd key && decide (key.qualifier ∈ space)) where
  shown_withStart range first filter key := by simp [h.shown_withStart]
  fault range filter s := (settled_seek h space family range filter s).1
  size_le := h.size_le
  shows_seek range filter s := by
    have := shows_of_settled h (settled_seek h space family range filter s).2
    rw [belowView, List.filter_filter] at this
    convert this using 3 with e
    cases range.beforeStart e.1 <;> simp [scanKeeps, Bool.and_comm]

/-! ## Rounds

Scans over two sources that walk alike walk alike, also where one takes more rounds than the other: with as many rounds
as there are entries, no search is cut short. -/

theorem settle_congr {other : Source σ} (htop : below.top = other.top) (hseek : below.seek = other.seek)
    (space : SearchSpace) (family : Bytes) (rounds : Nat) (s : SkipState σ) :
    settle below space family rounds s = settle other space family rounds s := by
  induction rounds generalizing s with
  | zero => rfl
  | succ rounds ih => simp only [settle, htop, hseek, ih]

theorem reached_settle (space : SearchSpace) (family : Bytes) (rounds : Nat) {s : SkipState σ}
    (h : below.Reached s.below) : below.Reached (settle below space family rounds s).state.below := by
  induction rounds generalizing s with
  | zero => exact h
  | succ rounds ih =>
    rw [settle]
    split
    · exact h
    · dsimp only
      split_ifs
      · exact h
      · exact h
      · exact h
      · split
        · exact reached_seek ..
        · exact ih (reached_seek ..)

theorem reached_below (space : SearchSpace) (family : Bytes) {s : SkipState σ}
    (h : (below.skipScan space family).Reached s) : s.exhausted = true ∨ below.Reached s.below := by
  refine h.induction (P := fun s => s.exhausted = true ∨ below.Reached s.below) (fun range filter s => ?_)
    fun s hs => ?_
  · simp only [skipScan]
    split
    · exact .inl rfl
    · split
      · exact .inr (reached_seek ..)
      · exact .inr (reached_settle space family _ (reached_seek ..))
  · simp only [skipScan]
    split
    · exact hs
    · next hopen =>
      have hbelow : below.Reached s.below := hs.resolve_left fun hex => hopen (by simp [hex])
      split
      · exact .inr hbelow.next
      · exact .inr (reached_settle space family _ hbelow.next)

theorem sameWalk_skipScan {other : Source σ} (hsame : below.SameWalk other) (h : below.Serves entries shown)
    (hother : entries.size ≤ other.size) (space : SearchSpace) (family : Bytes) :
    (below.skipScan space family).SameWalk (other.skipScan space family) := by
  -- the two searches from one state take different numbers of rounds, and both are enough
  have hsettle {s : SkipState σ} {rest : List Entry} (hopen : s.exhausted = false)
      (hsuffix : rest <:+ belowView entries shown family s.range) (hshows : below.Shows s.below rest) :
      settle below space family (below.size + 1) s = settle other space family (other.size + 1) s := by
    obtain ⟨reply, hreply, -⟩ := settle_spec h space hopen hsuffix hshows
    have hlen := length_lt_rounds h hsuffix
    have hrest := hsuffix.length_le
    have hview := length_belowView_le entries shown family s.range
    rw [← settle_congr hsame.top hsame.seek, hreply _ hlen, hreply _ (by omega)]
  refine ⟨?_, ?_, fun s hs => ?_⟩
  · funext s
    simp only [skipScan, hsame.top]
  · funext range filter s
    have hrun := hsettle (s := ⟨(below.seek range (.only family) s.below).state, range, false, 0⟩) rfl
      (List.suffix_refl _) (h.shows_seek range (.only family) s.below)
    simp only [skipScan, ← hsame.seek, h.fault, hrun]
  · obtain ⟨out, hsettled⟩ := settled_of_reached h hs
    have hbelow := reached_below space family hs
    obtain ⟨state, range, exhausted, reseeks⟩ := s
    obtain ⟨rfl, -⟩ | ⟨rfl, rest, hsuffix, hshows, -, -⟩ := hsettled
    · rfl
    · have hnext := hsame.next state (hbelow.resolve_left (by simp))
      have hrun := hsettle (s := ⟨(below.next state).state, range, false, reseeks⟩) rfl
        ((List.tail_suffix rest).trans hsuffix) hshows.next
      simp only [skipScan, ← hsame.top, ← hnext, hshows.fault, hrun]

end ProximitySearch.Source
