import GraphZeppelin.Sketch.Sampling

namespace GraphZeppelin.Sketch

variable {p : SketchParams}

def InWindow (p : SketchParams) (r : ℕ) (b : Fin p.numBuckets) : Prop :=
  r < p.numSamples ∧ (b = p.detBucket ∨ InRange p r 1 b)

instance (r : ℕ) (b : Fin p.numBuckets) : Decidable (InWindow p r b) :=
  inferInstanceAs (Decidable (_ ∧ _))

def clip (p : SketchParams) (r : ℕ) :
    (Fin p.numBuckets → Bucket) →+ (Fin p.numBuckets → Bucket) where
  toFun f b := if InWindow p r b then f b else 0
  map_zero' := by
    funext b
    simp
  map_add' f g := by
    funext b
    by_cases h : InWindow p r b <;> simp [h]

theorem clip_apply (r : ℕ) (f : Fin p.numBuckets → Bucket) (b : Fin p.numBuckets) :
    clip p r f b = if InWindow p r b then f b else 0 := rfl

theorem clip_clip (r : ℕ) (f : Fin p.numBuckets → Bucket) :
    clip p r (clip p r f) = clip p r f := by
  funext b
  by_cases h : InWindow p r b <;> simp [clip_apply,h]

theorem rangeMerge_buckets (s other : Sketch p) (r : ℕ) :
    (s.rangeMerge other r 1).buckets = s.buckets + clip p r other.buckets := by
  funext b
  unfold rangeMerge
  rw [Pi.add_apply,clip_apply]
  by_cases hr : p.numSamples < r + 1
  · have hw : ¬ InWindow p r b := fun h => absurd h.1 (by omega)
    rw [if_pos hr,if_neg hw,add_zero]
  · rw [if_neg hr]
    by_cases hb : b = p.detBucket ∨ InRange p r 1 b
    · have hw : InWindow p r b := ⟨by omega,hb⟩
      simp only [hb,hw,if_true]
      rfl
    · have hw : ¬ InWindow p r b := fun h => hb h.2
      simp only [hb,hw,if_false,add_zero]

theorem rangeMerge_sampleIdx {s : Sketch p} (other : Sketch p) {r : ℕ} (hr : r ≤ p.numSamples)
    (hs : s.sampleIdx ≤ r) : (s.rangeMerge other r 1).sampleIdx = r := by
  unfold rangeMerge
  split
  · change p.numSamples = r
    omega
  · exact max_eq_right hs

theorem holds_of_clip {xxh : XxHash} {s : Sketch p} {r : ℕ} {S : Finset VecT}
    (hr : r < p.numSamples) (hs : s.buckets = clip p r (setBuckets xxh p S)) :
    Holds xxh s r S := by
  intro b hb
  rw [hs,clip_apply,if_pos ⟨hr,hb⟩]

end GraphZeppelin.Sketch
