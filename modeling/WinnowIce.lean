import WinnowIce.Basic
import WinnowIce.Horndini
import WinnowIce.HorndiniCorrect
import WinnowIce.PrepareSets
import WinnowIce.Reduce
import WinnowIce.ReduceCorrect
import WinnowIce.Greedy
import WinnowIce.GreedyLoops
import WinnowIce.GreedyCorrect
import WinnowIce.Minimal
import WinnowIce.MinimalCorrect
import WinnowIce.Reducers
import WinnowIce.RFile
import WinnowIce.Ltf2bool
import WinnowIce.Online
import WinnowIce.Winnow
import WinnowIce.WinnowTrain
import WinnowIce.Perceptron
import WinnowIce.PerceptronTrain
import WinnowIce.Learners
import WinnowIce.Round
import WinnowIce.RoundCorrect
