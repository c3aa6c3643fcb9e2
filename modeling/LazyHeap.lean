import LazyHeap.Main
import LazyHeap.Proofs.Session.Borrows
import LazyHeap.Proofs.Session.Completion
import LazyHeap.Proofs.Session.Isolation
import LazyHeap.Proofs.Session.Strides
import LazyHeap.Session.Transcript
import LazyHeap.Proofs.Session.DeepCopies
import LazyHeap.Proofs.Particles.Simulation
