import ScriptFold.Build.State
import ScriptFold.Proofs.Text.Trailing

/-!
The package that a file belongs to.

All folders around a file are beginnings of one path that end before a slash or at its end. So of
two of them the one with fewer bytes holds the other, and the folder with most bytes is the nearest
one, whatever the order of the packages.
-/

namespace ScriptFold.Build

/-! ## Folders -/

/-- A path is a folder or continues it after a slash. -/
def Within (path folder : List Char) : Prop :=
  path = folder ∨ ∃ rest, path = folder ++ '/' :: rest

theorem folder_eq_iff {root : String} {f : List Char} :
    folder root = f ↔ (∃ n, root.toList = f ++ List.replicate n '/') ∧ f.getLast? ≠ some '/' :=
  Text.rdropWhile_eq_iff

theorem isWithin_iff {path root : String} :
    isWithin path root = true ↔ Within path.toList (folder root) := by
  unfold isWithin Within
  constructor
  · intro h
    split at h
    · rename_i hdrop
      exact .inl (by simpa using Text.dropStart?_eq_some_iff.1 hdrop)
    · rename_i rest hdrop
      exact .inr ⟨rest, Text.dropStart?_eq_some_iff.1 hdrop⟩
    · cases h
  · rintro (h | ⟨rest, h⟩)
    · rw [Text.dropStart?_eq_some_iff.2 (h.trans (List.append_nil _).symm)]
    · rw [Text.dropStart?_eq_some_iff.2 h]
      rfl

theorem eq_nil_of_byteLength_eq_zero {cs : List Char} (h : byteLength cs = 0) : cs = [] := by
  cases cs with
  | nil => rfl
  | cons c cs =>
    have hc : 0 < c.utf8Size := c.utf8Size_pos
    rw [byteLength_cons] at h
    omega

/-- Of two folders around a path the one that is no shorter lies within the other one. -/
theorem Within.of_byteLength_le {path f g : List Char} (hf : Within path f) (hg : Within path g)
    (hle : byteLength g ≤ byteLength f) : Within f g := by
  -- After a folder the path ends or goes on with a slash.
  have hafter : ∀ {folder : List Char}, Within path folder →
      ∃ rest, path = folder ++ rest ∧ ∀ c ∈ rest.head?, c = '/' := by
    rintro folder (h | ⟨rest, h⟩)
    · exact ⟨[], by simpa using h, by rintro c ⟨⟩⟩
    · exact ⟨'/' :: rest, h, by rintro c ⟨⟩; rfl⟩
  obtain ⟨restF, hpathF, -⟩ := hafter hf
  obtain ⟨restG, hpathG, hslash⟩ := hafter hg
  have hboth : g ++ restG = f ++ restF := hpathG.symm.trans hpathF
  rcases List.append_eq_append_iff.1 hboth with ⟨more, hmore, hrest⟩ | ⟨more, hmore, -⟩
  · cases more with
    | nil => exact .inl (by simpa using hmore)
    | cons c more =>
      obtain rfl : c = '/' := hslash c (by rw [hrest]; rfl)
      exact .inr ⟨more, hmore⟩
  · rw [hmore, byteLength_append] at hle
    have hzero : byteLength more = 0 := by omega
    obtain rfl := eq_nil_of_byteLength_eq_zero hzero
    exact .inl (by simpa using hmore.symm)

/-- Two folders that lie within each other are the same. -/
theorem Within.antisymm {f g : List Char} (hfg : Within f g) (hgf : Within g f) : f = g := by
  rcases hfg with rfl | ⟨more, rfl⟩
  · rfl
  · rcases hgf with h | ⟨rest, h⟩
    · exact h.symm
    · have hlength := congrArg List.length h
      simp only [List.length_append, List.length_cons] at hlength
      omega

/-! ## Packages -/

def Package.Encloses (p : Package) (filename : String) : Prop :=
  Within filename.toList (folder p.root)

namespace State

theorem exists_foldl_nearer (p : Package) (ps : List Package) :
    ∃ q ∈ p :: ps, ps.foldl nearer (some p) = some q ∧
      ∀ r ∈ p :: ps, byteLength (folder r.root) ≤ byteLength (folder q.root) := by
  induction ps generalizing p with
  | nil => exact ⟨p, List.mem_cons_self, rfl, by simp⟩
  | cons next ps ih =>
    rw [List.foldl_cons, nearer]
    split
    · rename_i hle
      obtain ⟨q, hq, hfold, hmax⟩ := ih next
      refine ⟨q, List.mem_cons_of_mem _ hq, hfold, List.forall_mem_cons.2 ⟨?_, hmax⟩⟩
      exact Nat.le_trans hle (hmax next List.mem_cons_self)
    · rename_i hlt
      obtain ⟨q, hq, hfold, hmax⟩ := ih p
      obtain ⟨hp, hrest⟩ := List.forall_mem_cons.1 hmax
      refine ⟨q, ?_, hfold, ?_⟩
      · rcases List.mem_cons.1 hq with rfl | hq
        · exact List.mem_cons_self
        · exact List.mem_cons_of_mem _ (List.mem_cons_of_mem _ hq)
      · refine List.forall_mem_cons.2 ⟨hp, List.forall_mem_cons.2 ⟨?_, hrest⟩⟩
        omega

theorem mem_enclosing_iff {s : State} {p : Package} :
    p ∈ s.options.packages.filter (fun p => isWithin s.filename p.root) ↔
      p ∈ s.options.packages ∧ p.Encloses s.filename := by
  rw [List.mem_filter, isWithin_iff, Package.Encloses]

theorem owningPackage?_cases (s : State) :
    (s.owningPackage? = none ∧ ∀ p ∈ s.options.packages, ¬ p.Encloses s.filename) ∨
      ∃ p, s.owningPackage? = some p ∧ p ∈ s.options.packages ∧ p.Encloses s.filename ∧
        ∀ q ∈ s.options.packages, q.Encloses s.filename →
          byteLength (folder q.root) ≤ byteLength (folder p.root) := by
  have hmem (p : Package) := mem_enclosing_iff (s := s) (p := p)
  unfold owningPackage?
  cases hps : s.options.packages.filter fun p => isWithin s.filename p.root with
  | nil =>
    refine .inl ⟨rfl, fun p hp hencloses => ?_⟩
    have hnil := (hmem p).2 ⟨hp, hencloses⟩
    rw [hps] at hnil
    cases hnil
  | cons first rest =>
    obtain ⟨p, hp, hfold, hmax⟩ := exists_foldl_nearer first rest
    rw [hps] at hmem
    obtain ⟨hlisted, hencloses⟩ := (hmem p).1 hp
    exact .inr ⟨p, hfold, hlisted, hencloses, fun q hq hq' => hmax q ((hmem q).2 ⟨hq, hq'⟩)⟩

theorem owningPackage?_eq_none_iff (s : State) :
    s.owningPackage? = none ↔ ∀ p ∈ s.options.packages, ¬ p.Encloses s.filename := by
  rcases s.owningPackage?_cases with ⟨hnone, hall⟩ | ⟨p, hsome, hlisted, hencloses, -⟩
  · exact iff_of_true hnone hall
  · rw [hsome]
    exact iff_of_false nofun fun hall => hall p hlisted hencloses

theorem nearest_of_owningPackage? (s : State) {p : Package} (h : s.owningPackage? = some p) :
    p ∈ s.options.packages ∧ p.Encloses s.filename ∧
      ∀ q ∈ s.options.packages, q.Encloses s.filename →
        Within (folder p.root) (folder q.root) := by
  rcases s.owningPackage?_cases with ⟨hnone, -⟩ | ⟨p', hsome, hlisted, hencloses, hmax⟩
  · rw [h] at hnone
    cases hnone
  · obtain rfl : p = p' := Option.some.inj (h.symm.trans hsome)
    exact ⟨hlisted, hencloses, fun q hq hq' => hencloses.of_byteLength_le hq' (hmax q hq hq')⟩

/-- **The nearest package.** The folder of a package is its root without the slashes at its end. A
file belongs to no package exactly if it lies in the folder of none. Otherwise it belongs to a
package whose folder it lies in, and this folder lies within the folder of every other such package.
So it depends only on which packages there are, not on their order. -/
theorem owningPackage?_nearest (s : State) :
    (∀ root f, folder root = f ↔
      (∃ n, root.toList = f ++ List.replicate n '/') ∧ f.getLast? ≠ some '/') ∧
    (s.owningPackage? = none ↔ ∀ p ∈ s.options.packages, ¬ p.Encloses s.filename) ∧
    (∀ p, s.owningPackage? = some p → p ∈ s.options.packages ∧ p.Encloses s.filename ∧
      ∀ q ∈ s.options.packages, q.Encloses s.filename → Within (folder p.root) (folder q.root)) ∧
    ∀ s' : State, s'.filename = s.filename →
      (∀ p, p ∈ s'.options.packages ↔ p ∈ s.options.packages) →
      s'.owningPackage?.map (fun p => folder p.root) =
        s.owningPackage?.map fun p => folder p.root := by
  refine ⟨fun root f => folder_eq_iff, s.owningPackage?_eq_none_iff,
    fun p => s.nearest_of_owningPackage?, fun s' hfile hlisted => ?_⟩
  cases h : s.owningPackage? with
  | none =>
    have hnone := s.owningPackage?_eq_none_iff.1 h
    have h' : s'.owningPackage? = none := by
      rw [owningPackage?_eq_none_iff, hfile]
      exact fun p hp => hnone p ((hlisted p).1 hp)
    rw [h']
  | some p =>
    obtain ⟨hp, hencloses, hwithin⟩ := s.nearest_of_owningPackage? h
    cases h' : s'.owningPackage? with
    | none =>
      rw [owningPackage?_eq_none_iff, hfile] at h'
      exact absurd hencloses (h' p ((hlisted p).2 hp))
    | some q =>
      obtain ⟨hq, hencloses', hwithin'⟩ := s'.nearest_of_owningPackage? h'
      rw [hfile] at hencloses' hwithin'
      have hfolder : folder q.root = folder p.root :=
        (hwithin' p ((hlisted p).2 hp) hencloses).antisymm
          (hwithin q ((hlisted q).1 hq) hencloses')
      rw [Option.map_some, Option.map_some, hfolder]

/-- A package inside another one, with slashes at the end of its root, is nearer than the other one
and than the root of all files; a folder beside it whose name begins alike is not around the
file. -/
theorem owningPackage?_nearest_nested :
    let nested : Package := ⟨"addon", "2.0.0", "/work/app/node_modules/addon//"⟩
    let packages : List Package := [⟨"app", "1.0.0", "/work/app"⟩, nested,
      ⟨"add", "1.0.0", "/work/app/node_modules/add"⟩, ⟨"all", "0.0.0", "/"⟩]
    let s : State := ⟨⟨none, [], packages, [], [], []⟩, "/work/app/node_modules/addon/index.js", []⟩
    let s' : State := ⟨⟨none, [], packages.reverse, [], [], []⟩, s.filename, []⟩
    s.owningPackage? = some nested ∧
      Within (folder nested.root) (folder "/") ∧
      s'.owningPackage?.map (fun p => folder p.root) =
        some "/work/app/node_modules/addon".toList := by
  intro nested packages s s'
  have howner : s.owningPackage? = some nested := by decide +kernel
  obtain ⟨-, -, hnearest, horder⟩ := s.owningPackage?_nearest
  obtain ⟨-, -, hwithin⟩ := hnearest nested howner
  have hall : (⟨"all", "0.0.0", "/"⟩ : Package).Encloses s.filename :=
    .inr ⟨"work/app/node_modules/addon/index.js".toList, by decide +kernel⟩
  refine ⟨howner, hwithin _ (by simp [s, packages]) hall, ?_⟩
  rw [horder s' rfl fun p => List.mem_reverse, howner]
  decide +kernel

end State

end ScriptFold.Build
