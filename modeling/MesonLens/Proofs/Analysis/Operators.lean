import MesonLens.Analysis.Operator
import MesonLens.Proofs.Types.Union

/-!
# `MesonLens.Proofs.Analysis.Operators`: operators and unions

After a branch the types of a variable are joined, and an expression is typed on the union.
Arithmetic operators look at pairs of operand types one by one, but a union is not a plain union
of members: its lists and dictionaries have become one. What an operator gives for a pair is
additive in either operand (`BinaryOp.additive_gives_left`, `BinaryOp.additive_gives_right`), so
that nothing is lost and nothing is gained (`BinaryOp.result_union`).
-/

set_option autoImplicit false

namespace MesonLens

namespace Ty

/-! ### Making additive properties -/

variable {G : Ty → Prop}

theorem Additive.const (p : Prop) : Additive fun _ => p :=
  ⟨fun _ h => h, fun _ _ _ => or_self_iff.symm⟩

theorem Additive.or_const (hG : Additive G) (p : Prop) : Additive fun t => G t ∨ p := by
  constructor
  · exact fun h => Or.imp_left (hG.congr h)
  · intro k es there
    simp only [hG.join k es there]
    exact or_or_distrib_right

/-- It does not matter for which of some types a property holds. -/
theorem Additive.exists_mem {R : Ty → Ty → Prop} {ts : List Ty}
    (h : ∀ u, Additive fun t => R t u) : Additive fun t => ∃ u ∈ ts, R t u := by
  constructor
  · rintro t t' hequal ⟨u, hu, hR⟩
    exact ⟨u, hu, (h u).congr hequal hR⟩
  · intro k es there
    simp only [(h _).join k es there, and_or_left, exists_or]

/-- A property is additive if on the holders of each kind it is one that is. -/
theorem Additive.of_holders
    (hplain : ∀ {t u : Ty}, (∀ k : Holder, k.open? t = none) → t.cmp u = .eq → G t → G u)
    (hholder : ∀ k : Holder, ∃ Q, Additive Q ∧ ∀ ts, G (k.of ts) ↔ Q (k.of ts)) : Additive G := by
  constructor
  · intro t u hequal ht
    rcases holder_cases t with ⟨k, ts, rfl⟩ | hnone
    · obtain ⟨us, hopen, -⟩ := open?_of_cmp hequal (Holder.open?_of k ts)
      rw [Holder.open?_eq_some_iff] at hopen
      subst hopen
      obtain ⟨Q, hQ, hsame⟩ := hholder k
      exact (hsame us).mpr (hQ.congr hequal ((hsame ts).mp ht))
    · exact hplain hnone hequal ht
  · intro k es there
    obtain ⟨Q, hQ, hsame⟩ := hholder k
    rw [hsame, hsame, hsame]
    exact hQ.join k es there

/-- Equal types that hold nothing are the same type, or one object under two names. -/
theorem eq_or_object_of_cmp {t u : Ty} (hplain : ∀ k : Holder, k.open? t = none)
    (h : t.cmp u = .eq) : t = u ∨ ∃ id name name', t = object id name ∧ u = object id name' := by
  have hrank := rank_eq_of_cmp h
  cases t with
  | list ts => cases hplain .list
  | dict ts => cases hplain .dict
  | object id name =>
    cases u <;> simp only [rank] at hrank <;> try contradiction
    obtain rfl := Nat.compare_eq_eq.mp (by simpa [cmp] using h)
    exact .inr ⟨id, _, _, rfl, rfl⟩
  | _ =>
    refine .inl ?_
    cases u <;> first | rfl | (simp only [rank] at hrank; contradiction)

/-- What a list of one type has is additive in that type. -/
theorem additive_has_singleton (f : Feature) : Additive fun t => Has f (.list [t]) := by
  cases f with
  | family n => exact .const ((6 : Nat) = n)
  | number id => simpa [Has] using Additive.const False
  | inside k f =>
    cases k with
    | list => simpa [Has, Holder.open?] using additive_has f
    | dict => simpa [Has, Holder.open?] using Additive.const False

end Ty

namespace BinaryOp

open Ty (Feature Has Additive)

/-! ### Pairs -/

/-- What the operator gives for two types has the feature. -/
def Gives (op : BinaryOp) (f : Feature) (left right : Ty) : Prop :=
  ∃ t, op.pairResult? left right = some t ∧ Has f t

variable {op : BinaryOp} {f : Feature} {es : List Ty} {left right : Ty}

/-- A type that passes every check makes the result pass every check. -/
theorem gives_of_anyLike (h : left.isAnyLike = true ∨ right.isAnyLike = true) :
    op.Gives f left right ↔ Has f .any := by
  have hguard : (left.isAnyLike || right.isAnyLike) = true := by simpa using h
  simp [Gives, pairResult?, hguard]

/-- What is added to a list is joined with its elements. -/
theorem gives_list (h : right.isAnyLike = false) :
    add.Gives f (.list es) right ↔ Has f (.list es) ∨ Has f (.list (listItem right).members) := by
  have hguard : ((Ty.list es).isAnyLike || right.isAnyLike) = false := by rw [h]; rfl
  have hpair : add.pairResult? (.list es) right =
      some ((TypeSet.mk es).union (listItem right)).listType := by
    rw [pairResult?, hguard]
    rfl
  rw [Gives, hpair]
  simp only [Option.some.injEq, exists_eq_left']
  exact (Ty.additive_has f).join .list (listItem right).members es

/-- Dictionaries that are added are joined. -/
theorem gives_dict {vs : List Ty} :
    add.Gives f (.dict es) (.dict vs) ↔ Has f (.dict es) ∨ Has f (.dict vs) := by
  have hpair : add.pairResult? (.dict es) (.dict vs) =
      some ((TypeSet.mk es).union ⟨vs⟩).dictType := rfl
  rw [Gives, hpair]
  simp only [Option.some.injEq, exists_eq_left']
  exact (Ty.additive_has f).join .dict vs es

/-- Nothing else goes together with a list on the left. -/
theorem not_gives_list (hop : op ≠ add) (h : right.isAnyLike = false) :
    ¬ op.Gives f (.list es) right := by
  cases op <;> cases right <;> simp_all [Gives, pairResult?, Ty.isAnyLike]

/-- Nothing else goes together with a dictionary on the left. -/
theorem not_gives_dict (hop : op ≠ add ∨ ∀ vs, right ≠ .dict vs) (h : right.isAnyLike = false) :
    ¬ op.Gives f (.dict es) right := by
  cases op <;> cases right <;> simp_all [Gives, pairResult?, Ty.isAnyLike]

/-- A list or dictionary on the right goes together with one on the left only. -/
theorem not_gives_of_right (k : Holder) (hleft : ∀ l : Holder, l.open? left = none)
    (h : left.isAnyLike = false) : ¬ op.Gives f left (k.of es) := by
  have hlist := hleft .list
  have hdict := hleft .dict
  cases k <;> cases op <;> cases left <;>
    simp_all [Gives, pairResult?, Ty.isAnyLike, Holder.open?, Holder.of]

/-- An object goes together with the same types under any name. -/
theorem gives_congr_left {t u : Ty} (hplain : ∀ k : Holder, k.open? t = none)
    (h : t.cmp u = .eq) (ht : op.Gives f t right) : op.Gives f u right := by
  rcases Ty.eq_or_object_of_cmp hplain h with rfl | ⟨id, name, name', rfl, rfl⟩
  · exact ht
  · cases op <;> cases right <;> exact ht

theorem additive_gives_left (op : BinaryOp) (f : Feature) (right : Ty) :
    Additive fun left => op.Gives f left right := by
  refine .of_holders gives_congr_left fun k => ?_
  cases hany : right.isAnyLike with
  | true => exact ⟨_, .const (Has f .any), fun u => gives_of_anyLike (.inr hany)⟩
  | false =>
    cases k with
    | list =>
      by_cases hop : op = add
      · subst hop
        exact ⟨_, (Ty.additive_has f).or_const _, fun ts => gives_list hany⟩
      · exact ⟨_, .const False, fun ts => iff_of_false (not_gives_list hop hany) id⟩
    | dict =>
      by_cases hop : op = add ∧ ∃ vs, right = .dict vs
      · obtain ⟨rfl, vs, rfl⟩ := hop
        exact ⟨_, (Ty.additive_has f).or_const _, fun ts => gives_dict⟩
      · have hnot : op ≠ add ∨ ∀ vs, right ≠ .dict vs := by
          rwa [not_and_or, not_exists] at hop
        exact ⟨_, .const False, fun ts => iff_of_false (not_gives_dict hnot hany) id⟩

/-- What a type adds to the elements of a list is additive. -/
theorem additive_listItem (f : Feature) :
    Additive fun t => Has f (.list (listItem t).members) := by
  have hsingle : ∀ t : Ty, Ty.isList t = false → (listItem t).members = [t] := by
    intro t ht
    cases t <;> first | exact TypeSet.single_members _ | cases ht
  refine .of_holders ?_ fun k => ?_
  · intro t u hplain h ht
    rcases Ty.eq_or_object_of_cmp hplain h with rfl | ⟨id, name, name', rfl, rfl⟩
    · exact ht
    · rw [hsingle _ rfl] at ht ⊢
      exact (Ty.additive_has_singleton f).congr h ht
  · cases k with
    | list => exact ⟨_, Ty.additive_has f, fun ts => Iff.rfl⟩
    | dict =>
      refine ⟨_, Ty.additive_has_singleton f, fun ts => ?_⟩
      show Has f (.list (listItem (.dict ts)).members) ↔ _
      rw [hsingle _ rfl]
      rfl

theorem additive_gives_right (op : BinaryOp) (f : Feature) (left : Ty) :
    Additive fun right => op.Gives f left right := by
  cases hany : left.isAnyLike with
  | true =>
    -- A type that stands for any other gives the same, whatever is on the right.
    have hconst : (fun right => op.Gives f left right) = fun _ => Has f .any := by
      funext right
      exact propext (gives_of_anyLike (.inl hany))
    rw [hconst]
    exact .const _
  | false =>
    -- Lists and dictionaries are merged item by item, and all other types only with their equals.
    refine .of_holders ?_ fun k => ?_
    · intro t u hplain h ht
      rcases Ty.eq_or_object_of_cmp hplain h with rfl | ⟨id, name, name', rfl, rfl⟩
      · exact ht
      · by_cases hadd : op = add ∧ ∃ es, left = .list es
        · obtain ⟨rfl, es, rfl⟩ := hadd
          rw [gives_list rfl] at ht ⊢
          exact ht.imp_right fun hitem => (additive_listItem f).congr h hitem
        · cases op <;> cases left <;> first | exact ht | exact absurd ⟨rfl, _, rfl⟩ hadd
    · rcases Ty.holder_cases left with ⟨l, es, rfl⟩ | hplain
      · cases l with
        | list =>
          by_cases hop : op = add
          · subst hop
            refine ⟨_, (additive_listItem f).or_const (Has f (.list es)), fun ts => ?_⟩
            rw [or_comm]
            exact gives_list (by cases k <;> rfl)
          · exact ⟨_, .const False, fun ts =>
              iff_of_false (not_gives_list hop (by cases k <;> rfl)) id⟩
        | dict =>
          by_cases hadd : op = add ∧ k = .dict
          · obtain ⟨rfl, rfl⟩ := hadd
            refine ⟨_, (Ty.additive_has f).or_const (Has f (.dict es)), fun ts => ?_⟩
            rw [or_comm]
            exact gives_dict
          · refine ⟨_, .const False, fun ts => iff_of_false (not_gives_dict ?_ ?_) id⟩
            · rcases not_and_or.mp hadd with hop | hk
              · exact .inl hop
              · refine .inr fun vs heq => hk ?_
                cases k <;> first | rfl | cases heq
            · cases k <;> rfl
      · exact ⟨_, .const False, fun ts => iff_of_false (not_gives_of_right k hplain hany) id⟩

/-! ### Sets -/

theorem canonical_listItem {t : Ty} (h : t.Canonical) : (listItem t).Canonical := by
  cases t with
  | list es => exact Ty.canonical_of (k := .list).mp h
  | _ => exact TypeSet.canonical_ofList (by simpa using h)

/-- What an operator gives for types of the form has the form. -/
theorem canonical_pairResult {t : Ty} (hleft : left.Canonical) (hright : right.Canonical)
    (h : op.pairResult? left right = some t) : t.Canonical := by
  have hplain : ∀ u : Ty, u.parts = [] → u.Canonical := by
    intro u hu
    rw [Ty.canonical_iff, hu]
    exact Ty.canonicalAll_nil
  unfold pairResult? at h
  split at h
  · cases h
    exact hplain _ rfl
  · split at h <;> cases h <;> try exact hplain _ rfl
    · have hes : TypeSet.Canonical ⟨_⟩ := Ty.canonical_of (k := .list).mp hleft
      exact Ty.canonical_of (k := .list).mpr (hes.union (canonical_listItem hright))
    · have hvs : TypeSet.Canonical ⟨_⟩ := Ty.canonical_of (k := .dict).mp hleft
      have hws : TypeSet.Canonical ⟨_⟩ := Ty.canonical_of (k := .dict).mp hright
      exact Ty.canonical_of (k := .dict).mpr (hvs.union hws)

variable {a b r : TypeSet}

theorem result_eq_ofList (hop : op.family = .arithmetic) (ha : a.isEmpty = false)
    (hb : b.isEmpty = false) : op.result a b =
      TypeSet.ofList (a.members.flatMap fun l => b.members.filterMap (op.pairResult? l)) := by
  simp [result, hop, ha, hb]

theorem canonical_result (hop : op.family = .arithmetic) (ha : a.Canonical) (hb : b.Canonical)
    (hane : a.isEmpty = false) (hbne : b.isEmpty = false) : (op.result a b).Canonical := by
  rw [result_eq_ofList hop hane hbne]
  refine TypeSet.canonical_ofList fun t ht => ?_
  obtain ⟨l, hl, ht⟩ := List.mem_flatMap.mp ht
  obtain ⟨r, hr, hpair⟩ := List.mem_filterMap.mp ht
  exact canonical_pairResult (ha.members l hl) (hb.members r hr) hpair

/-- An operator that is used on sets gives what it gives on pairs of members. -/
theorem has_result (hop : op.family = .arithmetic) (ha : a.isEmpty = false)
    (hb : b.isEmpty = false) :
    (op.result a b).Has f ↔ ∃ l ∈ a.members, ∃ r ∈ b.members, op.Gives f l r := by
  rw [result_eq_ofList hop ha hb, TypeSet.has_ofList]
  simp only [List.mem_flatMap, List.mem_filterMap, Gives]
  constructor
  · rintro ⟨t, ⟨l, hl, r, hr, hpair⟩, hf⟩
    exact ⟨l, hl, r, hr, t, hpair, hf⟩
  · rintro ⟨l, hl, r, hr, t, hpair, hf⟩
    exact ⟨t, ⟨l, hl, r, hr, hpair⟩, hf⟩

/-- A union with a set that is not empty is not empty. -/
theorem isEmpty_union (ha : a.isEmpty = false) : (a.union b).isEmpty = false := by
  have hmembers : a.members ≠ [] := by simpa [TypeSet.isEmpty] using ha
  have hunion : (a.union b).members ≠ [] := Ty.addAllTo_ne_nil b.members hmembers
  simpa [TypeSet.isEmpty] using hunion

/-- **Operators distribute over unions.** What an arithmetic operator gives for a union of types, on
either side, is the union of what it gives for the parts. So an expression that is typed after two
branches are merged has the types that it has in the one branch or in the other. -/
theorem result_union (hop : op.family = .arithmetic) (ha : a.Built) (hb : b.Built) (hr : r.Built)
    (hane : a.isEmpty = false) (hbne : b.isEmpty = false) (hrne : r.isEmpty = false) :
    op.result (a.union b) r == (op.result a r).union (op.result b r) ∧
      op.result r (a.union b) == (op.result r a).union (op.result r b) := by
  have hunion := isEmpty_union (b := b) hane
  have hform := ha.canonical.union hb.canonical
  constructor
  · have hleft := canonical_result hop ha.canonical hr.canonical hane hrne
    have hright := canonical_result hop hb.canonical hr.canonical hbne hrne
    refine (canonical_result hop hform hr.canonical hunion hrne).beq (hleft.union hright) ?_
    intro f
    rw [TypeSet.has_union, has_result hop hunion hrne, has_result hop hane hrne,
      has_result hop hbne hrne]
    have hadd : Additive fun l => ∃ u ∈ r.members, op.Gives f l u :=
      .exists_mem fun u => additive_gives_left op f u
    exact (hadd.addAllTo b.members a.members).trans or_comm
  · have hleft := canonical_result hop hr.canonical ha.canonical hrne hane
    have hright := canonical_result hop hr.canonical hb.canonical hrne hbne
    refine (canonical_result hop hr.canonical hform hrne hunion).beq (hleft.union hright) ?_
    intro f
    rw [TypeSet.has_union, has_result hop hrne hunion, has_result hop hrne hane,
      has_result hop hrne hbne]
    have hadd (l : Ty) := (additive_gives_right op f l).addAllTo b.members a.members
    simp only [TypeSet.union, hadd, and_or_left, exists_or]
    exact or_comm

/-- The types `int | list(str)` and `list(int)` before `+ str`: the lists are joined first on the
one way and last on the other. -/
theorem result_union_lists :
    let a := TypeSet.ofList [.int, (TypeSet.single .str).listType]
    let b := TypeSet.single (TypeSet.single .int).listType
    let r := TypeSet.single .str
    add.family = .arithmetic ∧ a.Built ∧ b.Built ∧ r.Built ∧
      add.result (a.union b) r = ⟨[.list [.int, .str]]⟩ ∧
      add.result (a.union b) r == (add.result a r).union (add.result b r) := by
  intro a b r
  have hint : Ty.Built .int := .plain fun k => by cases k <;> rfl
  have hstr : Ty.Built .str := .plain fun k => by cases k <;> rfl
  have hr : r.Built := .single hstr
  have ha : a.Built := .ofList (by simpa using ⟨hint, .listType hr⟩)
  have hb : b.Built := .single (.listType (.single hint))
  have hop : add.family = .arithmetic := rfl
  exact ⟨hop, ha, hb, hr, rfl, (result_union hop ha hb hr rfl rfl rfl).1⟩

end BinaryOp

end MesonLens
