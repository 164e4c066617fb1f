import Mathlib.Data.List.Forall2
import Mathlib.Data.List.Sort
import LetLang.Functions

/-!
# Tables of functions

A look-up sees the keys of the other declarations only, and it does not depend on their order as
long as no key comes twice.
-/

namespace LetLang

namespace Functions

variable {fs gs : Functions} {decls others : List Declaration} {name : String} {arity : Nat}
  {d : Declaration}

def Keyed (fs : Functions) : Prop := ∀ entry ∈ fs.entries, entry.2.key = entry.1

theorem keyed_ofDeclarations (decls : List Declaration) : (ofDeclarations decls).Keyed := by
  intro entry member
  obtain ⟨d, _, rfl⟩ := List.mem_map.mp member
  rfl

theorem keys_ofDeclarations (decls : List Declaration) :
    (ofDeclarations decls).keys = decls.map Declaration.key := List.map_map

theorem declarations_ofDeclarations (decls : List Declaration) :
    (ofDeclarations decls).declarations = decls := by
  rw [declarations, ofDeclarations, List.map_map]
  exact List.map_id decls

theorem ofDeclarations_append (decls : List Declaration) (d : Declaration) :
    ofDeclarations (decls ++ [d]) = (ofDeclarations decls).insert d.key d := by
  simp [ofDeclarations, insert]

theorem mem_of_find? (found : fs.find? name arity = some d) : ((name, arity), d) ∈ fs.entries := by
  obtain ⟨before, behind, split, _⟩ := List.lookup_eq_some_iff.mp found
  rw [split]
  exact List.mem_append_right _ List.mem_cons_self

theorem find?_eq_none_iff : fs.find? name arity = none ↔ (name, arity) ∉ fs.keys := by
  rw [find?, List.lookup_eq_none_iff, keys, List.mem_map, not_exists]
  refine forall_congr' fun entry => ?_
  rw [not_and, bne_iff_ne, ne_comm]

theorem find?_eq_some_iff (distinct : fs.keys.Nodup) :
    fs.find? name arity = some d ↔ ((name, arity), d) ∈ fs.entries := by
  refine ⟨mem_of_find?, fun member => ?_⟩
  cases found : fs.find? name arity with
  | none => exact absurd (List.mem_map_of_mem member) (find?_eq_none_iff.mp found)
  | some first =>
    have same := List.inj_on_of_nodup_map distinct (mem_of_find? found) member rfl
    exact congrArg some (Prod.mk.inj same).2

theorem Keyed.mem_of_find? (keyed : fs.Keyed) (found : fs.find? name arity = some d) :
    d ∈ fs.declarations ∧ d.key = (name, arity) :=
  have member := Functions.mem_of_find? found
  ⟨List.mem_map_of_mem member, keyed _ member⟩

theorem Keyed.find?_eq_some_iff (keyed : fs.Keyed) (distinct : fs.keys.Nodup) :
    fs.find? name arity = some d ↔ d ∈ fs.declarations ∧ d.key = (name, arity) := by
  refine ⟨keyed.mem_of_find?, fun ⟨member, same⟩ => ?_⟩
  obtain ⟨entry, there, rfl⟩ := List.mem_map.mp member
  rw [Functions.find?_eq_some_iff distinct, ← same, keyed entry there]
  exact there

theorem mem_arities_iff {n : Nat} : n ∈ fs.arities name ↔ (name, n) ∈ fs.keys := by
  rw [arities, List.mem_mergeSort, List.mem_map]
  constructor
  · rintro ⟨key, member, rfl⟩
    obtain ⟨member, same⟩ := List.mem_filter.mp member
    exact beq_iff_eq.mp same ▸ member
  · intro member
    exact ⟨_, List.mem_filter.mpr ⟨member, beq_self_eq_true name⟩, rfl⟩

theorem pairwise_arities (distinct : fs.keys.Nodup) (name : String) :
    (fs.arities name).Pairwise (· < ·) := by
  have numbers : ((fs.keys.filter fun key => key.1 == name).map Prod.snd).Nodup := by
    refine (distinct.filter _).map_on fun key member other there same => Prod.ext ?_ same
    have named := beq_iff_eq.mp (List.mem_filter.mp member).2
    exact named.trans (beq_iff_eq.mp (List.mem_filter.mp there).2).symm
  have different : (fs.arities name).Nodup := (List.mergeSort_perm _ _).nodup_iff.mpr numbers
  have ascending : (fs.arities name).Pairwise (· ≤ ·) := List.pairwise_mergeSort' (· ≤ ·) _
  exact ascending.imp₂ (fun _ _ le ne => Nat.lt_of_le_of_ne le ne) different

def Related (R : Declaration → Declaration → Prop) (fs gs : Functions) : Prop :=
  List.Forall₂ (fun entry other => other.1 = entry.1 ∧ R entry.2 other.2) fs.entries gs.entries

namespace Related

variable {R : Declaration → Declaration → Prop}

theorem empty : Related R .empty .empty := .nil

theorem insert (related : Related R fs gs) {s : Declaration} (more : R d s) (key : String × Nat) :
    Related R (fs.insert key d) (gs.insert key s) :=
  List.rel_append related (.cons ⟨rfl, more⟩ .nil)

theorem keys (related : Related R fs gs) : gs.keys = fs.keys := by
  have same : List.Forall₂ (· = ·) fs.keys gs.keys :=
    List.forall₂_map_left_iff.mpr
      (List.forall₂_map_right_iff.mpr (related.imp fun _ _ both => both.1.symm))
  rw [List.forall₂_eq_eq_eq] at same
  exact same.symm

theorem declares (related : Related R fs gs) (name : String) :
    gs.declares name = fs.declares name := by
  rw [Functions.declares, Functions.declares, related.keys]

theorem arities (related : Related R fs gs) (name : String) :
    gs.arities name = fs.arities name := by
  rw [Functions.arities, Functions.arities, related.keys]

theorem callError (related : Related R fs gs) (name : String) (given : Nat) (offset : UInt32) :
    gs.callError name given offset = fs.callError name given offset := by
  rw [Functions.callError, Functions.callError, related.arities]

theorem declarations (related : Related R fs gs) :
    List.Forall₂ R fs.declarations gs.declarations :=
  List.forall₂_map_left_iff.mpr (List.forall₂_map_right_iff.mpr (related.imp fun _ _ both => both.2))

theorem find? (related : Related R fs gs) (name : String) (arity : Nat) :
    (fs.find? name arity = none ∧ gs.find? name arity = none) ∨
      ∃ d s, fs.find? name arity = some d ∧ gs.find? name arity = some s ∧ R d s := by
  obtain ⟨entries⟩ := fs
  obtain ⟨others⟩ := gs
  dsimp only [Related, Functions.find?] at related ⊢
  induction related with
  | nil => exact .inl ⟨rfl, rfl⟩
  | @cons entry other _ _ first _ ih =>
    rw [List.lookup_cons, List.lookup_cons, first.1]
    cases (name, arity) == entry.1 with
    | true => exact .inr ⟨_, _, rfl, rfl, first.2⟩
    | false => exact ih

theorem keyed (related : Related R fs gs) (same : ∀ d s, R d s → s.key = d.key)
    (keyed : fs.Keyed) : gs.Keyed := by
  obtain ⟨entries⟩ := fs
  obtain ⟨others⟩ := gs
  dsimp only [Related, Keyed] at related keyed ⊢
  induction related with
  | nil => exact keyed
  | cons first _ ih =>
    obtain ⟨here, rest⟩ := List.forall_mem_cons.mp keyed
    exact List.forall_mem_cons.mpr ⟨by rw [same _ _ first.2, here, first.1], ih rest⟩

end Related

section

variable (reordered : decls.Perm others)

include reordered

theorem declares_of_perm (name : String) :
    (ofDeclarations decls).declares name = (ofDeclarations others).declares name := by
  rw [declares, declares, keys_ofDeclarations, keys_ofDeclarations]
  exact (reordered.map _).any_eq

theorem arities_of_perm (name : String) :
    (ofDeclarations decls).arities name = (ofDeclarations others).arities name := by
  have numbers := ((reordered.map Declaration.key).filter fun key => key.1 == name).map Prod.snd
  rw [← keys_ofDeclarations, ← keys_ofDeclarations] at numbers
  refine List.Perm.eq_of_pairwise' (List.pairwise_mergeSort' (· ≤ ·) _)
    (List.pairwise_mergeSort' (· ≤ ·) _) ?_
  exact ((List.mergeSort_perm _ _).trans numbers).trans (List.mergeSort_perm _ _).symm

theorem find?_of_perm (distinct : (decls.map Declaration.key).Nodup) (name : String) (arity : Nat) :
    (ofDeclarations decls).find? name arity = (ofDeclarations others).find? name arity := by
  have distinct' := (reordered.map Declaration.key).nodup_iff.mp distinct
  rw [← keys_ofDeclarations] at distinct distinct'
  refine Option.ext fun d => ?_
  rw [Functions.find?_eq_some_iff distinct, Functions.find?_eq_some_iff distinct']
  exact (reordered.map _).mem_iff

end

end Functions

end LetLang
