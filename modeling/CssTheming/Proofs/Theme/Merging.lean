import CssTheming.Proofs.Success
import CssTheming.Storage.FileSystem
import CssTheming.Theme.Load
import Mathlib.Data.List.Basic

/-!
# Documents put together

A document goes to a path of keys only where nothing is in its way. Then it is found there, and
everything else stays where it was; otherwise nothing changes at all. So when many documents have
been put together, each is at its own path, and what has come to it is from documents that were put
below it.
-/

namespace CssTheming.Document

abbrev Entries := List (Document × Document)

variable {d value : Document} {key : String} {path front : List String}
  {entries entries' inner inner' : Entries}

/-! ## Values at paths -/

/-- The value at a path of keys, which leads through mappings only. -/
def reach? : Document → List Document → Option Document
  | d, [] => some d
  | .mapping entries, key :: rest =>
    (entries.find? fun e => e.1.same key).bind fun e => e.2.reach? rest
  | _, _ :: _ => none

/-- Names of files are keys that are texts. -/
def keys (path : List String) : List Document := path.map .text

theorem prefix_keys_iff {front path : List String} : keys front <+: keys path ↔ front <+: path :=
  List.prefix_map_iff_of_injective fun _ _ h => Document.text.inj h

theorem same_text : d.same (.text key) = true ↔ d = .text key := by
  cases d <;> simp [same]

theorem text_same : (Document.text key).same d = true ↔ d = .text key := by
  cases d with
  | text s => simp [same, eq_comm (a := key)]
  | _ => simp [same]

theorem kind_eq_mapping : d.kind = .mapping ↔ ∃ entries, d = .mapping entries := by
  cases d <;> simp [kind]

theorem reach?_append {ks ls : List Document} :
    d.reach? (ks ++ ls) = (d.reach? ks).bind (·.reach? ls) := by
  induction ks generalizing d with
  | nil => simp [reach?]
  | cons k ks ih =>
    cases d with
    | mapping entries =>
      simp only [List.cons_append, reach?, Option.bind_assoc]
      congr 1
      funext e
      exact ih
    | _ => rfl

theorem reach?_key (key : String) (ks : List Document) (entries : Entries) :
    (mapping entries).reach? (.text key :: ks) = (valueAt? key entries).bind (·.reach? ks) := by
  simp only [reach?, valueAt?]
  cases entries.find? fun e => e.1.same (.text key) <;> rfl

/-- A mapping that is made on the way has nothing in it, as there was nothing before. -/
theorem reach?_inside (h : (valueAt? key entries).getD (.mapping []) = .mapping inner)
    (k : Document) (ks : List Document) :
    (mapping entries).reach? (.text key :: k :: ks) = (mapping inner).reach? (k :: ks) := by
  rw [reach?_key]
  cases hv : valueAt? key entries with
  | none =>
    rw [hv] at h
    cases h
    rfl
  | some v =>
    rw [hv] at h
    cases h
    rfl

/-! ## Setting an entry -/

theorem valueAt?_setEntry : valueAt? key (setEntry key value entries) = some value := by
  induction entries with
  | nil => simp [setEntry, valueAt?, same]
  | cons e es ih =>
    by_cases h : e.1.same (.text key) = true
    · simp [setEntry, valueAt?, h]
    · simpa [setEntry, valueAt?, h] using ih

theorem find?_setEntry {k : Document} (h : k ≠ .text key) :
    (setEntry key value entries).find? (fun e => e.1.same k) =
      entries.find? fun e => e.1.same k := by
  have hother : (Document.text key).same k = false := by simpa using mt text_same.1 h
  induction entries with
  | nil => simp [setEntry, hother]
  | cons e es ih =>
    by_cases he : e.1.same (.text key) = true
    · have hk : e.1.same k = false := by rw [same_text.1 he, hother]
      simp [setEntry, he, hk]
    · simp [setEntry, he, List.find?_cons, ih]

theorem setEntry_eq_self (h : valueAt? key entries = some value) :
    setEntry key value entries = entries := by
  induction entries with
  | nil => cases h
  | cons e es ih =>
    by_cases he : e.1.same (.text key) = true
    · simp only [valueAt?, List.find?_cons, he, Option.map_some, Option.some.injEq] at h
      simp [setEntry, he, ← h]
    · rw [setEntry, if_neg he, ih (by simpa [valueAt?, he] using h)]

theorem reach?_setEntry (ks : List Document) :
    (mapping (setEntry key value entries)).reach? (.text key :: ks) = value.reach? ks := by
  rw [reach?_key, valueAt?_setEntry]
  rfl

theorem reach?_setEntry_of_ne {k : Document} (h : k ≠ .text key) (ks : List Document) :
    (mapping (setEntry key value entries)).reach? (k :: ks) =
      (mapping entries).reach? (k :: ks) := by
  simp only [reach?, find?_setEntry h]

/-! ## What one document does -/

/-- A value in the way of a document: one at the document's own path, or one on the way there that
is no mapping. -/
def InTheWay (path : List String) (entries : Entries) (front : List String) : Prop :=
  front <+: path ∧
    ∃ d, (mapping entries).reach? (keys front) = some d ∧ (front = path ∨ d.kind ≠ .mapping)

/-- A document put at a path. The mappings on the way there are those that are there, and new ones
where there is nothing. -/
inductive Placed (value : Document) : List String → Entries → Entries → Prop
  | here {key : String} {entries : Entries} (hfree : valueAt? key entries = none) :
    Placed value [key] entries (setEntry key value entries)
  | inside {key next : String} {rest : List String} {entries inner inner' : Entries}
    (hinner : (valueAt? key entries).getD (.mapping []) = .mapping inner)
    (h : Placed value (next :: rest) inner inner') :
    Placed value (key :: next :: rest) entries (setEntry key (.mapping inner') entries)

theorem InTheWay.ne_nil (h : InTheWay path entries front) (hpath : path ≠ []) : front ≠ [] := by
  rintro rfl
  obtain ⟨-, d, hd, hstop⟩ := h
  cases hd
  exact hstop.elim (fun h' => hpath h'.symm) fun h' => h' rfl

theorem not_inTheWay_nil (hpath : path ≠ []) : ¬InTheWay path [] front := by
  intro h
  obtain ⟨key, front, rfl⟩ := List.exists_cons_of_ne_nil (h.ne_nil hpath)
  obtain ⟨-, d, hd, -⟩ := h
  cases hd

theorem inTheWay_key : InTheWay [key] entries front ↔
    front = [key] ∧ ∃ v, valueAt? key entries = some v := by
  have hreach : (mapping entries).reach? (keys [key]) = valueAt? key entries := by
    simp [keys, reach?_key, reach?]
  constructor
  · intro h
    obtain ⟨l, ls, rfl⟩ := List.exists_cons_of_ne_nil (h.ne_nil (List.cons_ne_nil key []))
    obtain ⟨hle, d, hd, -⟩ := h
    obtain ⟨rfl, hnil⟩ := List.cons_prefix_cons.1 hle
    rw [List.prefix_nil.1 hnil, hreach] at hd
    exact ⟨by rw [List.prefix_nil.1 hnil], d, hd⟩
  · rintro ⟨rfl, v, hv⟩
    exact ⟨List.prefix_rfl, v, hreach.trans hv, .inl rfl⟩

/-- What is in the way of a document below a key is in its way inside the key's mapping. -/
theorem inTheWay_inside {next : String} {rest : List String}
    (h : (valueAt? key entries).getD (.mapping []) = .mapping inner) :
    InTheWay (key :: next :: rest) entries front ↔
      ∃ front', front = key :: front' ∧ InTheWay (next :: rest) inner front' := by
  constructor
  · intro hway
    obtain _ | ⟨k, front'⟩ := front
    · exact absurd rfl (hway.ne_nil (by simp))
    obtain ⟨hle, d, hd, hstop⟩ := hway
    obtain ⟨rfl, hfront⟩ := List.cons_prefix_cons.1 hle
    refine ⟨front', rfl, hfront, d, ?_, hstop.imp_left fun h' => (List.cons.inj h').2⟩
    cases front' with
    | cons l ls => exact (reach?_inside h (.text l) (keys ls)).symm.trans hd
    | nil =>
      rw [keys, List.map_singleton, reach?_key] at hd
      cases hv : valueAt? k entries with
      | none => simp [hv] at hd
      | some v =>
        rw [hv] at h hd
        cases h
        cases hd
        rcases hstop with h' | h'
        · cases h'
        · exact absurd rfl h'
  · rintro ⟨front', rfl, hway⟩
    have hne := hway.ne_nil (by simp)
    obtain ⟨hle, d, hd, hstop⟩ := hway
    refine ⟨List.cons_prefix_cons.2 ⟨rfl, hle⟩, d, ?_, hstop.imp_left (congrArg _)⟩
    obtain ⟨l, ls, rfl⟩ := List.exists_cons_of_ne_nil hne
    exact (reach?_inside h (.text l) (keys ls)).trans hd

/-- Nothing is in the way inside a mapping that is made on the way. -/
theorem valueAt?_of_inTheWay (h : (valueAt? key entries).getD (.mapping []) = .mapping inner)
    (hpath : path ≠ []) (hway : InTheWay path inner front) :
    valueAt? key entries = some (.mapping inner) := by
  cases hv : valueAt? key entries with
  | some v => rw [← h, hv, Option.getD_some]
  | none =>
    rw [hv] at h
    cases h
    exact absurd hway (not_inTheWay_nil hpath)

/-- A value that is no mapping is in the way of all that goes below it. -/
theorem place_of_not_mapping (above : List String) (value : Document) (next : String)
    (rest : List String)
    (h : ¬∃ inner, (valueAt? key entries).getD (.mapping []) = .mapping inner) :
    InTheWay (key :: next :: rest) entries [key] ∧
      place above (key :: next :: rest) value entries =
        (.error (.theme (".".intercalate (above ++ [key])) .duplicateSource), entries) := by
  obtain ⟨v, hv⟩ : ∃ v, valueAt? key entries = some v :=
    Option.ne_none_iff_exists'.1 fun hv => h ⟨[], by rw [hv, Option.getD_none]⟩
  rw [hv, Option.getD_some] at h
  constructor
  · refine ⟨by simp, v, ?_, .inr (mt kind_eq_mapping.1 h)⟩
    simp [keys, reach?_key, hv, reach?]
  · simp only [place, hv, Option.getD_some]
    split
    · exact absurd ⟨_, rfl⟩ h
    · rfl

/-- A document is put at its path, or something is in its way and the entries stay as they are. -/
theorem place_cases (above : List String) (value : Document) (hpath : path ≠ [])
    (entries : Entries) :
    (∃ front, InTheWay path entries front ∧ place above path value entries =
      (.error (.theme (".".intercalate (above ++ front)) .duplicateSource), entries)) ∨
    ((∀ front, ¬InTheWay path entries front) ∧
      ∃ entries', place above path value entries = (.ok (), entries') ∧
        Placed value path entries entries') := by
  induction path generalizing above entries with
  | nil => exact absurd rfl hpath
  | cons key path ih =>
    cases path with
    | nil =>
      simp only [inTheWay_key]
      cases hv : valueAt? key entries with
      | none => exact .inr ⟨by simp, _, by simp [place, hv], .here hv⟩
      | some v => exact .inl ⟨[key], ⟨rfl, v, rfl⟩, by simp [place, hv]⟩
    | cons next rest =>
      by_cases hm : ∃ inner, (valueAt? key entries).getD (.mapping []) = .mapping inner
      · obtain ⟨inner, hinner⟩ := hm
        simp only [inTheWay_inside hinner]
        rcases ih (above ++ [key]) (List.cons_ne_nil next rest) inner with
          ⟨front, hway, heq⟩ | ⟨hfree, inner', heq, h⟩
        · -- the key had its mapping before, which is set as it was
          have hv := valueAt?_of_inTheWay hinner (List.cons_ne_nil next rest) hway
          refine .inl ⟨key :: front, ⟨front, rfl, hway⟩, ?_⟩
          simp [place, hinner, heq, setEntry_eq_self hv]
        · refine .inr ⟨?_, _, by simp [place, hinner, heq], .inside hinner h⟩
          rintro _ ⟨front, -, hway⟩
          exact hfree front hway
      · exact .inl ⟨[key], place_of_not_mapping above value next rest hm⟩

namespace Placed

variable {ks : List Document}

/-- The document is found at its path, with everything in it. -/
theorem reach?_append (h : Placed value path entries entries') (ks : List Document) :
    (mapping entries').reach? (keys path ++ ks) = value.reach? ks := by
  induction h with
  | here hfree => exact reach?_setEntry ks
  | inside hinner h ih => exact (reach?_setEntry _).trans ih

theorem found (h : Placed value path entries entries') :
    (mapping entries').reach? (keys path) = some value := by
  simpa [reach?] using h.reach?_append []

theorem reach?_path (h : Placed value path entries entries') :
    (mapping entries).reach? (keys path) = none := by
  induction h with
  | here hfree => simp [keys, reach?_key, hfree]
  | inside hinner h ih => exact (reach?_inside hinner _ _).trans ih

/-- What is neither on the way to a document nor in it stays as it was. -/
theorem reach?_of_apart (h : Placed value path entries entries') (hway : ¬ks <+: keys path)
    (hin : ¬keys path <+: ks) : (mapping entries').reach? ks = (mapping entries).reach? ks := by
  induction h generalizing ks with
  | @here key entries hfree =>
    cases ks with
    | nil => exact absurd List.nil_prefix hway
    | cons k ks =>
      refine reach?_setEntry_of_ne ?_ ks
      rintro rfl
      exact hin (List.cons_prefix_cons.2 ⟨rfl, List.nil_prefix⟩)
  | @inside key next rest entries inner inner' hinner h ih =>
    cases ks with
    | nil => exact absurd List.nil_prefix hway
    | cons k ks =>
      by_cases hk : k = .text key
      · subst hk
        obtain ⟨l, ls, rfl⟩ : ∃ l ls, ks = l :: ls := by
          refine List.exists_cons_of_ne_nil ?_
          rintro rfl
          exact hway (List.cons_prefix_cons.2 ⟨rfl, List.nil_prefix⟩)
        rw [reach?_setEntry, reach?_inside hinner]
        exact ih (fun h => hway (List.cons_prefix_cons.2 ⟨rfl, h⟩))
          fun h => hin (List.cons_prefix_cons.2 ⟨rfl, h⟩)
      · exact reach?_setEntry_of_ne hk ks

/-- Every value stays where it is, but for the mappings on the way to the document. -/
theorem kept (h : Placed value path entries entries') (hway : ¬ks <+: keys path)
    (hd : (mapping entries).reach? ks = some d) : (mapping entries').reach? ks = some d := by
  refine (h.reach?_of_apart hway fun ⟨ls, hls⟩ => ?_).trans hd
  rw [← hls, Document.reach?_append, h.reach?_path] at hd
  cases hd

/-- A document that goes below a value goes inside it. -/
theorem reach?_below (h : Placed value (path ++ front) entries entries') (hfront : front ≠ [])
    (hd : (mapping entries).reach? (keys path) = some d) :
    ∃ inner inner', d = .mapping inner ∧ Placed value front inner inner' ∧
      (mapping entries').reach? (keys path) = some (.mapping inner') := by
  induction path generalizing entries entries' with
  | nil =>
    cases hd
    exact ⟨entries, entries', rfl, h, rfl⟩
  | cons key path ih =>
    have hne : path ++ front ≠ [] := List.append_ne_nil_of_right_ne_nil path hfront
    rw [List.cons_append] at h
    generalize hrest : path ++ front = rest at h hne
    cases h with
    | here hfree => exact absurd rfl hne
    | @inside _ _ _ _ inner inner' hinner h =>
      rw [keys, List.map_cons, reach?_key] at hd
      obtain ⟨v, hv, hd⟩ := Option.bind_eq_some_iff.1 hd
      rw [hv] at hinner
      cases hinner
      obtain ⟨inner₁, inner₁', hd', h', hreach⟩ := ih (hrest ▸ h) hd
      exact ⟨inner₁, inner₁', hd', h', (reach?_setEntry _).trans hreach⟩

theorem place_eq (h : Placed value path entries entries') (above : List String) :
    place above path value entries = (.ok (), entries') := by
  induction h generalizing above with
  | here hfree => simp [place, hfree]
  | inside hinner h ih => simp [place, hinner, ih]

end Placed

theorem place_eq_ok {above : List String} (hpath : path ≠ []) :
    place above path value entries = (.ok (), entries') ↔ Placed value path entries entries' := by
  refine ⟨fun h => ?_, fun h => h.place_eq above⟩
  rcases place_cases above value hpath entries with ⟨front, -, heq⟩ | ⟨-, entries'', heq, hplaced⟩
  · rw [heq] at h
    cases h
  · rw [heq] at h
    cases h
    exact hplaced

/-! ## What many documents do -/

/-- Documents put at their paths, in turn, as far as nothing is in the way. -/
def placeAll : List (List String × Document) → Entries → Except Error Unit × Entries
  | [], entries => (.ok (), entries)
  | (path, value) :: files, entries =>
    match place [] path value entries with
    | (.ok (), entries) => placeAll files entries
    | failed => failed

/-- The documents that go below a path, each with what its own path has more. -/
def filesBelow (path : List String) (files : List (List String × Document)) :
    List (List String × Document) :=
  files.filterMap fun (p, value) => (path.isPrefixOf? p).map (·, value)

/-- A document with other documents put inside it, which only a mapping takes. -/
def Extended (value : Document) (files : List (List String × Document)) (final : Document) : Prop :=
  (files = [] ∧ final = value) ∨ ∃ inner inner',
    value = .mapping inner ∧ placeAll files inner = (.ok (), inner') ∧ final = .mapping inner'

variable {file : List String × Document} {files : List (List String × Document)}
  {merged : Entries} {final : Document}

theorem placeAll_cons :
    placeAll (file :: files) entries = (.ok (), merged) ↔
      ∃ entries', place [] file.1 file.2 entries = (.ok (), entries') ∧
        placeAll files entries' = (.ok (), merged) := by
  obtain ⟨path, value⟩ := file
  rcases hplace : place [] path value entries with ⟨_ | u, entries'⟩
  · simp [placeAll, hplace]
  · simp [placeAll, hplace]

theorem placeAll_append {files' : List (List String × Document)} :
    placeAll (files ++ files') entries = (.ok (), merged) ↔
      ∃ entries', placeAll files entries = (.ok (), entries') ∧
        placeAll files' entries' = (.ok (), merged) := by
  induction files generalizing entries with
  | nil => simp [placeAll]
  | cons file files ih =>
    rw [List.cons_append, placeAll_cons]
    simp only [placeAll_cons, ih]
    constructor
    · rintro ⟨entries₁, hplace, entries₂, hfront, hback⟩
      exact ⟨entries₂, ⟨entries₁, hplace, hfront⟩, hback⟩
    · rintro ⟨entries₂, ⟨entries₁, hplace, hfront⟩, hback⟩
      exact ⟨entries₁, hplace, entries₂, hfront, hback⟩

theorem filesBelow_cons_append (path front : List String) (value : Document)
    (files : List (List String × Document)) :
    filesBelow path ((path ++ front, value) :: files) =
      (front, value) :: filesBelow path files := by
  have h : path.isPrefixOf? (path ++ front) = some front :=
    List.isPrefixOf?_eq_some_iff_append_eq.2 rfl
  simp [filesBelow, h]

theorem filesBelow_cons_apart (h : ¬path <+: file.1) :
    filesBelow path (file :: files) = filesBelow path files := by
  have hnone : path.isPrefixOf? file.1 = none := by
    by_contra hsome
    obtain ⟨front, hfront⟩ := Option.ne_none_iff_exists'.1 hsome
    exact h ⟨front, List.isPrefixOf?_eq_some_iff_append_eq.1 hfront⟩
  simp [filesBelow, hnone]

theorem Extended.cons {inner inner' : Entries} (h : Placed value path inner inner')
    (hfinal : Extended (.mapping inner') files final) :
    Extended (.mapping inner) ((path, value) :: files) final := by
  refine .inr ⟨inner, ?_⟩
  rcases hfinal with ⟨rfl, rfl⟩ | ⟨_, inner'', ⟨⟩, hall, rfl⟩
  · exact ⟨inner', rfl, placeAll_cons.2 ⟨inner', h.place_eq [], rfl⟩, rfl⟩
  · exact ⟨inner'', rfl, placeAll_cons.2 ⟨inner', h.place_eq [], hall⟩, rfl⟩

/-- Whatever is at a path stays there, with the documents inside that are put below the path. -/
theorem extended_of_placeAll (hfiles : ∀ file ∈ files, file.1 ≠ [])
    (hd : (mapping entries).reach? (keys path) = some d)
    (h : placeAll files entries = (.ok (), merged)) :
    ∃ final, (mapping merged).reach? (keys path) = some final ∧
      Extended d (filesBelow path files) final := by
  induction files generalizing entries d with
  | nil =>
    cases h
    exact ⟨d, hd, .inl ⟨rfl, rfl⟩⟩
  | cons file files ih =>
    obtain ⟨p, value⟩ := file
    obtain ⟨entries', hplace, hall⟩ := placeAll_cons.1 h
    have hplaced := (place_eq_ok (hfiles _ List.mem_cons_self)).1 hplace
    have hrest : ∀ file ∈ files, file.1 ≠ [] := fun file hf =>
      hfiles file (List.mem_cons_of_mem _ hf)
    by_cases hbelow : path <+: p
    · obtain ⟨front, rfl⟩ := hbelow
      -- at the very path the value itself is in the way
      have hfront : front ≠ [] := by
        rintro rfl
        rw [List.append_nil] at hplaced
        rw [hplaced.reach?_path] at hd
        cases hd
      obtain ⟨inner, inner', rfl, hinside, hd⟩ := hplaced.reach?_below hfront hd
      obtain ⟨final, hfinal, hext⟩ := ih hrest hd hall
      rw [filesBelow_cons_append]
      exact ⟨final, hfinal, hext.cons hinside⟩
    · rw [filesBelow_cons_apart hbelow]
      exact ih hrest (hplaced.kept (mt prefix_keys_iff.1 hbelow) hd) hall

/-- A document that is put at a path is found there in the end, with those inside that are put below
it later. -/
theorem found_of_placeAll {back : List (List String × Document)}
    (hfiles : ∀ file ∈ files ++ (path, value) :: back, file.1 ≠ [])
    (h : placeAll (files ++ (path, value) :: back) entries = (.ok (), merged)) :
    ∃ final, (mapping merged).reach? (keys path) = some final ∧
      Extended value (filesBelow path back) final := by
  obtain ⟨entries₁, -, hback⟩ := placeAll_append.1 h
  obtain ⟨entries₂, hplace, hback⟩ := placeAll_cons.1 hback
  have hplaced := (place_eq_ok (hfiles (path, value) (by simp))).1 hplace
  exact extended_of_placeAll (fun file hf => hfiles file (by simp [hf])) hplaced.found hback

/-- A document is put at its path and loses nothing, or nothing changes. So among documents that are
all put at their paths, each is found at its own in the end, with those inside that go below it. -/
theorem place_all_or_nothing :
    (∀ (path : List String) (value : Document) (entries : Entries), path ≠ [] →
      (∃ front, InTheWay path entries front ∧ place [] path value entries =
        (.error (.theme (".".intercalate front) .duplicateSource), entries)) ∨
      ((∀ front, ¬InTheWay path entries front) ∧ ∃ entries',
        place [] path value entries = (.ok (), entries') ∧
        (mapping entries').reach? (keys path) = some value ∧
        ∀ ks d, ¬ks <+: keys path → (mapping entries).reach? ks = some d →
          (mapping entries').reach? ks = some d)) ∧
    ∀ (files : List (List String × Document)) (entries merged : Entries),
      (∀ file ∈ files, file.1 ≠ []) → placeAll files entries = (.ok (), merged) →
      ∀ front path value back, files = front ++ (path, value) :: back →
        ∃ final, (mapping merged).reach? (keys path) = some final ∧
          Extended value (filesBelow path back) final := by
  constructor
  · intro path value entries hpath
    refine (place_cases [] value hpath entries).imp_right ?_
    rintro ⟨hfree, entries', heq, h⟩
    exact ⟨hfree, entries', heq, h.found, fun ks d hway hd => h.kept hway hd⟩
  · rintro _ entries merged hfiles hall front path value back rfl
    exact found_of_placeAll hfiles hall

/-- A text in the way of a file refuses it, and a mapping takes what is put below it. -/
theorem place_all_or_nothing_components :
    (∃ front, InTheWay ["components", "button"] [(.text "components", .text "red")] front ∧
      place [] ["components", "button"] .null [(.text "components", .text "red")] =
        (.error (.theme (".".intercalate front) .duplicateSource),
          [(.text "components", .text "red")])) ∧
    ∃ final, (mapping [(.text "components", .mapping [(.text "button", .null)])]).reach?
        (keys ["components"]) = some final ∧
      Extended (.mapping []) [(["button"], .null)] final := by
  constructor
  · refine (place_all_or_nothing.1 _ _ _ (by decide)).resolve_right ?_
    rintro ⟨-, entries', h, -⟩
    simp [place, valueAt?, same] at h
  · exact place_all_or_nothing.2
      [(["components"], .mapping []), (["components", "button"], .null)] [] _ (by simp)
      (by simp [placeAll, place, valueAt?, setEntry, same]) []
      ["components"] (.mapping []) [(["components", "button"], .null)] rfl

end CssTheming.Document

namespace CssTheming.ThemeSource

open Document

variable {s s' : FileSystem} {directory : String} {entries merged : Entries}
  {files : List (List String)}

def filePath (directory : String) (names : List String) : String := names.foldl Path.join directory

/-- The document of a file in a directory, with its path of keys. -/
def readFile (s : FileSystem) (directory : String) (names : List String) :
    Except Error (List String × Document) := do
  let text ← (s.read (filePath directory names)).mapError fun _ =>
    .unreadable (filePath directory names) none
  return (keyPath names, ← parseDocument (filePath directory names) text)

theorem read_run (path : String) (s : FileSystem) :
    (Storage.read (m := StateM FileSystem) path).run s = (s.read path, s) := rfl

theorem loadDocument_run (path : String) (s : FileSystem) :
    (loadDocument (m := StateM FileSystem) path).run.run s =
      ((s.read path).mapError (fun _ => .unreadable path none) >>= parseDocument path, s) := by
  simp only [loadDocument, Storage.orError, ExceptT.run_bind, ExceptT.run_mk, StateT.run_bind,
    StateT.run_map, read_run]
  cases s.read path <;> rfl

theorem mergeFiles_cons (names : List String) (s : FileSystem) :
    (mergeFiles (m := StateM FileSystem) directory entries (names :: files)).run.run s =
      if isDocumentName (filePath directory names) then
        match readFile s directory names with
        | .ok (path, document) =>
          match place [] path document entries with
          | (.ok (), entries) =>
            (mergeFiles (m := StateM FileSystem) directory entries files).run.run s
          | (.error e, _) => (.error e, s)
        | .error e => (.error e, s)
      else (mergeFiles (m := StateM FileSystem) directory entries files).run.run s := by
  rw [mergeFiles, ← filePath]
  split
  · rw [ExceptT.run_bind, StateT.run_bind, loadDocument_run, readFile]
    cases s.read (filePath directory names) with
    | error e => rfl
    | ok text =>
      simp only [Except.mapError, bind, Except.bind]
      cases parseDocument (filePath directory names) text with
      | error e => rfl
      | ok document =>
        simp only [pure, Except.pure]
        rcases hplace : place [] (keyPath names) document entries with ⟨_ | u, entries'⟩
        · simp only [StateT.run]
          rfl
        · simp only
          rfl
  · rfl

/-- Files of a directory are merged by putting their documents at their paths, in turn. -/
theorem mergeFiles_eq_ok :
    (mergeFiles (m := StateM FileSystem) directory entries files).run.run s = (.ok merged, s') ↔
      s' = s ∧ ∃ documents,
        (files.filter fun names => isDocumentName (filePath directory names)).mapM
          (readFile s directory) = .ok documents ∧
        placeAll documents entries = (.ok (), merged) := by
  induction files generalizing entries with
  | nil =>
    simp only [List.filter_nil, List.mapM_nil]
    constructor
    · rintro ⟨⟩
      exact ⟨rfl, [], rfl, rfl⟩
    · rintro ⟨rfl, _, ⟨⟩, ⟨⟩⟩
      rfl
  | cons names files ih =>
    rw [mergeFiles_cons]
    by_cases hname : isDocumentName (filePath directory names) = true
    · rw [if_pos hname, List.filter_cons, if_pos hname]
      simp only [List.mapM_cons, bind_eq_ok]
      cases hread : readFile s directory names with
      | error e => exact iff_of_false (by rintro ⟨⟩) (by simp)
      | ok file =>
        rcases hplace : place [] file.1 file.2 entries with ⟨_ | u, entries'⟩
        · simp only [hplace]
          exact iff_of_false (by rintro ⟨⟩) (by simp [hplace, placeAll_cons, pure, Except.pure])
        · simp [hplace, placeAll_cons, pure, Except.pure, ih]
    · rw [if_neg hname, List.filter_cons, if_neg hname]
      exact ih

theorem ne_nil_of_mem_walk {before : Outline.Branch → Outline.Branch → Bool}
    {contents : List (String × Outline)} {names : List String}
    (h : names ∈ (Outline.directory contents).walk before) : names ≠ [] := by
  rw [Outline.walk, List.mem_flatMap] at h
  obtain ⟨b, -, hb⟩ := h
  obtain ⟨rest, -, rfl⟩ := List.mem_map.1 hb
  exact List.cons_ne_nil b.name rest

theorem keyPath_ne_nil {names : List String} (h : names ≠ []) : keyPath names ≠ [] := by
  obtain _ | ⟨name, _ | ⟨next, rest⟩⟩ := names
  · exact absurd rfl h
  · exact List.cons_ne_nil _ _
  · exact List.cons_ne_nil _ _

theorem mergeDirectory_run {o : Outline} (ho : s.outline directory = .ok o) :
    (mergeDirectory (m := StateM FileSystem) directory).run.run s =
      ((mergeFiles (m := StateM FileSystem) directory []
        (o.walk Outline.filesFirst)).run.run s).map (·.map .mapping) id := by
  have houtline : (Storage.outline (m := StateM FileSystem) directory).run s = (.ok o, s) :=
    congrArg (·, s) ho
  simp only [mergeDirectory, Storage.orError, ExceptT.run_bind, ExceptT.run_mk, StateT.run_bind,
    StateT.run_map, houtline]
  change StateT.run ((mergeFiles (m := StateM FileSystem) directory [] _).run >>= _) s = _
  rw [StateT.run_bind]
  rcases StateT.run _ s with ⟨_ | _, _⟩ <;> rfl

/-- In the document of a directory each file's own is found at the file's path, with the documents
of later files inside that go below it. -/
theorem found_of_mergeDirectory {contents : List (String × Outline)} {document : Document}
    {names : List String} (hcontents : s.outline directory = .ok (.directory contents))
    (h : (mergeDirectory (m := StateM FileSystem) directory).run.run s = (.ok document, s'))
    (hnames : names ∈ (Outline.directory contents).walk Outline.filesFirst)
    (hname : isDocumentName (filePath directory names) = true) :
    ∃ file front back final, readFile s directory names = .ok file ∧
      (((Outline.directory contents).walk Outline.filesFirst).filter fun names =>
        isDocumentName (filePath directory names)).mapM (readFile s directory) =
          .ok (front ++ file :: back) ∧
      document.reach? (keys file.1) = some final ∧
      Extended file.2 (filesBelow file.1 back) final := by
  rw [mergeDirectory_run hcontents] at h
  rcases hmerge : (mergeFiles (m := StateM FileSystem) directory []
    ((Outline.directory contents).walk Outline.filesFirst)).run.run s with ⟨_ | merged, s₁⟩
  · rw [hmerge] at h
    cases h
  rw [hmerge] at h
  cases h
  obtain ⟨-, documents, hread, hall⟩ := mergeFiles_eq_ok.1 hmerge
  have hpaths : ∀ file ∈ documents, file.1 ≠ [] := by
    intro file hfile
    obtain ⟨names, hmem, hfile⟩ := (mem_of_mapM_eq_ok hread).1 hfile
    obtain ⟨text, -, hfile⟩ := bind_eq_ok.1 hfile
    obtain ⟨d, -, hfile⟩ := bind_eq_ok.1 hfile
    cases hfile
    exact keyPath_ne_nil (ne_nil_of_mem_walk (List.mem_of_mem_filter hmem))
  obtain ⟨file, hmem, hfile⟩ : ∃ file ∈ documents, readFile s directory names = .ok file :=
    ok_of_mapM_eq_ok hread (List.mem_filter.2 ⟨hnames, hname⟩)
  obtain ⟨front, back, rfl⟩ := List.append_of_mem hmem
  obtain ⟨final, hfinal, hext⟩ := found_of_placeAll hpaths hall
  exact ⟨file, front, back, final, hfile, hread, hfinal, hext⟩

end CssTheming.ThemeSource
