import Rearrange.Tensor.Ops
import Rearrange.Plan.Apply
/-!
# Dense arrays as a backend

The operations of `Tensor` make it a backend on which plans run.
-/
namespace Rearrange.Tensor

/-- Plans run on dense arrays with the operations of `Tensor`. -/
def backend : Backend Tensor where
  shape := Tensor.shape
  reshape := Tensor.reshape
  transpose := Tensor.transpose
  reduce := Tensor.reduce
  «repeat» := Tensor.repeat
  join := Tensor.join

end Rearrange.Tensor
