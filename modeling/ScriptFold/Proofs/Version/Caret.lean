import ScriptFold.Proofs.Version.Texts

/-!
The range of a caret before a release.

A caret keeps the numbers of a version up to the first one that is not zero. Before a release it
begins with `x.y.z-0`, the least version with the same numbers, where `~`, `>=` and a caret before a
pre-release begin with the version itself. So it lets in the pre-releases of the release.
-/

namespace ScriptFold.Version

open Text (IsWord)

/-! ## The order by numbers -/

section Order

variable {v w : Version} {a b c : Nat}

/-- Versions are in the order of the first of their numbers that differ, or of their tags. -/
theorem compare_eq_lt_iff : v.compare w = .lt ↔
    v.major < w.major ∨ v.major = w.major ∧ (v.minor < w.minor ∨ v.minor = w.minor ∧
      (v.patch < w.patch ∨ v.patch = w.patch ∧ compareTags v.tags w.tags = .lt)) := by
  simp only [compare, Ordering.then_eq_lt, Nat.compare_eq_lt, Nat.compare_eq_eq]

/-- No tag comes before the least one, so only numbers count before a floor. -/
theorem compare_floor_eq_lt_iff : v.compare (floor a b c) = .lt ↔
    v.major < a ∨ v.major = a ∧ (v.minor < b ∨ v.minor = b ∧ v.patch < c) := by
  have hleast : compareTags v.tags [.numeric 0] ≠ .lt := by
    intro h
    have hle := isLE_zero_compareTags v.tags
    have hswap : compareTags [.numeric 0] v.tags = (compareTags v.tags [.numeric 0]).swap :=
      Std.OrientedCmp.eq_swap
    rw [hswap, h] at hle
    cases hle
  rw [compare_eq_lt_iff]
  simp only [floor, hleast, and_false, or_false]

theorem compareTags_nil_eq_lt_iff {ts : List Tag} : compareTags ts [] = .lt ↔ ts ≠ [] := by
  cases ts <;> simp [compareTags]

end Order

/-! ## What a caret keeps -/

/-- The version `v` agrees with `p` on its numbers up to the first one that is not zero. -/
def Keeps (p v : Version) : Prop :=
  v.major = p.major ∧ (p.major = 0 → v.minor = p.minor ∧ (p.minor = 0 → v.patch = p.patch))

/-- The version `v` has a tag and is otherwise the release `p`. -/
def IsPrereleaseOf (p v : Version) : Prop := v.tags ≠ [] ∧ { v with tags := [] } = p

instance (p v : Version) : Decidable (Keeps p v) :=
  inferInstanceAs (Decidable (v.major = p.major ∧
    (p.major = 0 → v.minor = p.minor ∧ (p.minor = 0 → v.patch = p.patch))))

instance (p v : Version) : Decidable (IsPrereleaseOf p v) :=
  inferInstanceAs (Decidable (v.tags ≠ [] ∧ { v with tags := [] } = p))

section Release

variable {p v : Version}

theorem IsPrereleaseOf.compare_eq_lt (h : IsPrereleaseOf p v) : v.compare p = .lt := by
  obtain ⟨htags, rfl⟩ := h
  exact (compare_tags ..).trans (compareTags_nil_eq_lt_iff.2 htags)

theorem IsPrereleaseOf.keeps (h : IsPrereleaseOf p v) : Keeps p v := by
  obtain ⟨-, rfl⟩ := h
  exact ⟨rfl, fun _ => ⟨rfl, fun _ => rfl⟩⟩

/-- What does not come before the least version with the numbers of a release does not come before
the release, or is one of its pre-releases. -/
theorem compare_floor_ne_lt_iff (hp : p.tags = []) :
    v.compare (floor p.major p.minor p.patch) ≠ .lt ↔
      v.compare p ≠ .lt ∨ IsPrereleaseOf p v := by
  obtain ⟨a, b, c, _⟩ := p
  obtain ⟨a', b', c', ts⟩ := v
  cases hp
  rw [ne_eq, compare_floor_eq_lt_iff]
  simp only [ne_eq, compare_eq_lt_iff, compareTags_nil_eq_lt_iff, IsPrereleaseOf, mk.injEq,
    and_true]
  by_cases hts : ts = []
  · simp only [hts, not_true_eq_false, and_false, or_false, false_and]
  · simp only [hts, not_false_eq_true, and_true, true_and]
    omega

/-- From the first version of a caret on, its end is what the kept numbers do not reach. -/
theorem exists_caretEnd (o : Overflow) (hp : ∀ n ∈ (Pattern.full p).numbers, n + 1 < UInt64.size) :
    ∃ w, (Pattern.full p).caretEnd o = .ok w ∧
      ∀ v : Version, v.compare (floor p.major p.minor p.patch) ≠ .lt →
        (v.compare w = .lt ↔ Keeps p v) := by
  obtain ⟨a, b, c, ts⟩ := p
  simp only [Pattern.numbers, List.forall_mem_cons, List.not_mem_nil, false_imp_iff, implies_true,
    and_true] at hp
  obtain ⟨ha, hb, hc⟩ := hp
  suffices ∃ x y z, (Pattern.full ⟨a, b, c, ts⟩).caretEnd o = .ok (floor x y z) ∧
      ∀ i j k, ¬ (i < a ∨ i = a ∧ (j < b ∨ j = b ∧ k < c)) →
        ((i < x ∨ i = x ∧ (j < y ∨ j = y ∧ k < z)) ↔
          i = a ∧ (a = 0 → j = b ∧ (b = 0 → k = c))) by
    obtain ⟨x, y, z, hend, hkeeps⟩ := this
    refine ⟨floor x y z, hend, fun v hfrom => ?_⟩
    rw [ne_eq, compare_floor_eq_lt_iff] at hfrom
    rw [compare_floor_eq_lt_iff]
    exact hkeeps _ _ _ hfrom
  -- The three cases are those of `Pattern.caretEnd`.
  cases a with
  | zero =>
    cases b with
    | zero => exact ⟨0, 0, c + 1, by rw [Pattern.caretEnd, o.next_of_lt hc]; rfl, by omega⟩
    | succ b => exact ⟨0, b + 2, 0, by rw [Pattern.caretEnd, o.next_of_lt hb]; rfl, by omega⟩
  | succ a => exact ⟨a + 2, 0, 0, by rw [Pattern.caretEnd, o.next_of_lt ha]; rfl, by omega⟩

theorem all_between_iff (u w v : Version) :
    [Comparator.mk .ge w, ⟨.lt, u⟩].all (·.holds v) ↔ v.compare w ≠ .lt ∧ v.compare u = .lt := by
  simp only [List.all_cons, List.all_nil, Comparator.holds, Relation.holds, Bool.and_true,
    Bool.and_eq_true, bne_iff_ne, beq_iff_eq, ne_eq]

theorem meets_caret_iff {o : Overflow} (htags : p.tags = [])
    (hp : ∀ n ∈ (Pattern.full p).numbers, n + 1 < UInt64.size) :
    v.meets ((Pattern.full p).caret o) ↔ (v.compare p ≠ .lt ∨ IsPrereleaseOf p v) ∧ Keeps p v := by
  have hstart : (Pattern.full p).caretStart = floor p.major p.minor p.patch := by
    obtain ⟨a, b, c, _⟩ := p
    cases htags
    rfl
  obtain ⟨w, hend, hkeeps⟩ := exists_caretEnd o hp
  rw [Pattern.caret, hend, hstart, ← compare_floor_ne_lt_iff htags]
  · exact (all_between_iff w _ v).trans (and_congr_right (hkeeps v))
  · exact Pattern.noConfusion

end Release

/-! ## The range of a caret -/

variable {p : Version}

theorem isOperator_caret {cs : List Char} (hcs : cs ≠ []) : isOperator ('^' :: cs) = false := by
  simp [isOperator, operators, hcs.symm]

/-- The text of a release is a word that is read as the release. -/
theorem ofText?_text (hp : p.tags = []) (hmajor : p.major < UInt64.size)
    (hminor : p.minor < UInt64.size) (hpatch : p.patch < UInt64.size) :
    IsWord p.text.toList ∧ Pattern.ofText? p.text.toList = some (.full p) := by
  have hwell : p.WellFormed := ⟨hmajor, hminor, hpatch, by simp [hp]⟩
  exact ⟨hwell.isWord_text, hwell.ofText?_text⟩

/-- **The range of a caret before a release.** Let `p` be a release with numbers below the largest
one of 64 bits. Its text is a word that is read as `p`. Let a word be read as `p`. With a caret
before it, it admits a version if the version comes at or after `p` and agrees with `p` on its
numbers up to the first one that is not zero, or if the version is a pre-release of `p`. So the
versions that it admits with a caret but not with `>=` are the pre-releases of `p`. -/
theorem Range.admits_caret_release (hp : p.tags = []) (hmajor : p.major + 1 < UInt64.size)
    (hminor : p.minor + 1 < UInt64.size) (hpatch : p.patch + 1 < UInt64.size) :
    (IsWord p.text.toList ∧ Pattern.ofText? p.text.toList = some (.full p)) ∧
    ∀ (o : Overflow) (text : String) (v : Version), IsWord text.toList →
      Pattern.ofText? text.toList = some (.full p) →
      (admits o ("^" ++ text) v ↔ (v.compare p ≠ .lt ∧ Keeps p v) ∨ IsPrereleaseOf p v) ∧
      (admits o ("^" ++ text) v ∧ ¬ admits o (">=" ++ text) v ↔ IsPrereleaseOf p v) := by
  refine ⟨ofText?_text hp (by omega) (by omega) (by omega), fun o text v hword hread => ?_⟩
  have hlength := List.length_pos_of_ne_nil hword.ne_nil
  have hnumbers : ∀ n ∈ (Pattern.full p).numbers, n + 1 < UInt64.size := by
    simp [Pattern.numbers, hmajor, hminor, hpatch]
  have hcaret : admits o ("^" ++ text) v = v.meets ((Pattern.full p).caret o) :=
    admits_term ['^'] (by simp) (by decide) hword (isOperator_caret hword.ne_nil) rfl hread v
  have hatLeast : admits o (">=" ++ text) v = (Pattern.full p).atLeast.all (·.holds v) :=
    admits_term ['>', '='] (by simp) (by decide) hword
      (isOperator_of_length (by simpa using hlength)) rfl hread v
  have hfrom : (Pattern.full p).atLeast.all (·.holds v) ↔ v.compare p ≠ .lt := by
    simp [Pattern.atLeast, Pattern.lower, Comparator.holds, Relation.holds]
  rw [hcaret, hatLeast, meets_caret_iff hp hnumbers, hfrom]
  refine ⟨⟨?_, ?_⟩, ⟨?_, fun hpre => ⟨⟨.inr hpre, hpre.keeps⟩, not_not.2 hpre.compare_eq_lt⟩⟩⟩
  · rintro ⟨hge | hpre, hkeeps⟩
    · exact .inl ⟨hge, hkeeps⟩
    · exact .inr hpre
  · rintro (⟨hge, hkeeps⟩ | hpre)
    · exact ⟨.inl hge, hkeeps⟩
    · exact ⟨.inr hpre, hpre.keeps⟩
  · rintro ⟨⟨hge | hpre, -⟩, hbefore⟩
    · exact absurd hge hbefore
    · exact hpre

/-- The range `^1.2.3` admits `1.2.3-alpha`, and the range `^0.0.3` only versions `0.0.3`. -/
theorem Range.admits_caret_release_text :
    let p : Version := ⟨1, 2, 3, []⟩
    let v : Version := ⟨1, 2, 3, [.alpha "alpha"]⟩
    let q : Version := ⟨0, 0, 3, []⟩
    (p.tags = [] ∧ p.major + 1 < UInt64.size ∧ p.minor + 1 < UInt64.size ∧
      p.patch + 1 < UInt64.size) ∧
    admits .stops "^1.2.3" v ∧ ¬ admits .stops ">=1.2.3" v ∧ admits .stops "^0.0.3" q ∧
    ¬ admits .stops "^0.0.3" { q with patch := 4 } := by
  intro p v q
  obtain ⟨⟨hword, hread⟩, hadmits⟩ :=
    admits_caret_release (p := p) rfl (by decide) (by decide) (by decide)
  obtain ⟨⟨hword', hread'⟩, hadmits'⟩ :=
    admits_caret_release (p := q) rfl (by decide) (by decide) (by decide)
  obtain ⟨-, hrejected⟩ := hadmits .stops p.text v hword hread
  obtain ⟨hadmitted, -⟩ := hadmits' .stops q.text q hword' hread'
  obtain ⟨hnext, -⟩ := hadmits' .stops q.text { q with patch := 4 } hword' hread'
  have hprerelease : IsPrereleaseOf p v := by decide
  have htext : p.text = "1.2.3" := by decide +kernel
  have htext' : q.text = "0.0.3" := by decide +kernel
  rw [htext] at hrejected
  rw [htext'] at hadmitted hnext
  exact ⟨by decide, (hrejected.2 hprerelease).1, (hrejected.2 hprerelease).2,
    hadmitted.2 (by decide), fun h => absurd (hnext.1 h) (by decide)⟩

/-- The version `1.2.3-alpha` lies in the range `^1.2.3` though it comes before `1.2.3`. -/
theorem Range.caret_below_release :
    let p : Version := ⟨1, 2, 3, []⟩
    let v : Version := ⟨1, 2, 3, [.alpha "alpha"]⟩
    satisfies .stops "1.2.3-alpha" "^1.2.3" = some true ∧
      satisfies .stops "1.2.3-alpha" ">=1.2.3" = some false ∧
      v.compare p = .lt ∧ ¬ (admits .stops "^1.2.3" v ↔ v.compare p ≠ .lt ∧ Keeps p v) := by
  decide +kernel

end ScriptFold.Version
