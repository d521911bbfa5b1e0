import Fediux.Algorithm.Aby3ML
import Fediux.Algorithm.Arithmetic
import Fediux.Algorithm.Cmp
import Fediux.Algorithm.GetSubset
import Fediux.Algorithm.ImportColumns
import Fediux.Algorithm.LogisticRegression
import Fediux.Algorithm.MissingExecute
import Fediux.Algorithm.MissingRun
import Fediux.Algorithm.Regression
import Fediux.Algorithm.ReplaceValue
import Fediux.Align.CsvRows
import Fediux.Align.MysqlQuery
import Fediux.Align.QueryRounds
import Fediux.Arrow.DataType
import Fediux.Arrow.MakeArray
import Fediux.Arrow.Table
import Fediux.Basic.BitSearch
import Fediux.Basic.Chunks
import Fediux.Basic.CommonOrder
import Fediux.Basic.Counter
import Fediux.Basic.Dict
import Fediux.Basic.Epochs
import Fediux.Basic.Fallible
import Fediux.Basic.FixedBase
import Fediux.Basic.FloatNaN
import Fediux.Basic.FloatOrder
import Fediux.Basic.FloatText
import Fediux.Basic.Framing
import Fediux.Basic.Grouping
import Fediux.Basic.Joint
import Fediux.Basic.Json
import Fediux.Basic.Messaging
import Fediux.Basic.Missing
import Fediux.Basic.Moments
import Fediux.Basic.NextPrime
import Fediux.Basic.OrderedMap
import Fediux.Basic.Orders
import Fediux.Basic.Outcomes
import Fediux.Basic.Parallel
import Fediux.Basic.Postfix
import Fediux.Basic.Reduction
import Fediux.Basic.Replicated
import Fediux.Basic.Residue
import Fediux.Basic.ReturnCodes
import Fediux.Basic.Run
import Fediux.Basic.RunningMean
import Fediux.Basic.Separator
import Fediux.Basic.Session
import Fediux.Basic.Shaped
import Fediux.Basic.StableSort
import Fediux.Basic.Strto
import Fediux.Basic.Threads
import Fediux.Basic.Throwing
import Fediux.Basic.Turns
import Fediux.Contribution.FinalAssignment
import Fediux.Contribution.MrShapley
import Fediux.Contribution.Shapley
import Fediux.Contribution.Utilities
import Fediux.Executor.Agreement
import Fediux.Executor.Columns
import Fediux.Executor.Evaluate
import Fediux.Executor.Grammar
import Fediux.Executor.Infix
import Fediux.Executor.Loop
import Fediux.Executor.Meaning
import Fediux.Executor.MinOrMax
import Fediux.Executor.Outline
import Fediux.Executor.ParseExpress
import Fediux.Executor.ParseIndex
import Fediux.Executor.RunMode
import Fediux.Executor.Simulation
import Fediux.Executor.Statistics
import Fediux.Executor.SumOrAvg
import Fediux.Hfl.DpAccounting
import Fediux.Hfl.GlobalModel
import Fediux.Hfl.Rounds
import Fediux.Metrics.RocMerge
import Fediux.Network.GrpcChannel
import Fediux.Network.MessageInterface
import Fediux.Network.Payload
import Fediux.Node.Aby3Scheduler
import Fediux.Node.Dispatch
import Fediux.Node.DownloadData
import Fediux.Node.DuplicateTask
import Fediux.Node.Receive
import Fediux.Node.RegisterDataset
import Fediux.Node.Registry
import Fediux.Node.SchedulerCleaner
import Fediux.Node.SchedulerWorker
import Fediux.Node.Siblings
import Fediux.Node.TaskMap
import Fediux.Node.WorkerExecute
import Fediux.Operator.Compare
import Fediux.Operator.Division
import Fediux.Operator.LinearOps
import Fediux.Operator.MPCOperator
import Fediux.Paillier.Cipher
import Fediux.Paillier.Correctness
import Fediux.Paillier.CrtDatapack
import Fediux.Paillier.Keygen
import Fediux.Paillier.Pack
import Fediux.Paillier.PackAdd
import Fediux.Paillier.Plaintext
import Fediux.Paillier.Powmod
import Fediux.Paillier.PowmodSizes
import Fediux.Pir.CachePath
import Fediux.Pir.Keyword
import Fediux.Pir.KeywordRounds
import Fediux.Pir.SavedRows
import Fediux.Preprocessing.Encoder
import Fediux.Preprocessing.Interpolate
import Fediux.Preprocessing.Normalizer
import Fediux.Preprocessing.Normmax
import Fediux.Preprocessing.OutlierHandler
import Fediux.Preprocessing.PcaTransformer
import Fediux.Preprocessing.Pipeline
import Fediux.Preprocessing.PowerTransformer
import Fediux.Preprocessing.StandardScaler
import Fediux.Preprocessing.TargetEncoder
import Fediux.Preprocessing.Transform
import Fediux.Psi.EcdhSession
import Fediux.Psi.LoadDataset
import Fediux.Psi.LoadedRows
import Fediux.Psi.LostFailures
import Fediux.Psi.Operators
import Fediux.Psi.ResultBytes
import Fediux.Psi.ResultConversion
import Fediux.Psi.SaveData
import Fediux.RandomForest.DecisionTree
import Fediux.Service.DatasetMeta
import Fediux.Service.MetaService
import Fediux.Sketch.Serde
import Fediux.Stats.Exchange
import Fediux.Stats.MeanVar
import Fediux.Stats.MinMax
import Fediux.Stats.RowNorm
import Fediux.Store.CsvHeader
import Fediux.Store.MysqlCursor
import Fediux.Store.SqliteCursor
import Fediux.Util.NodeText
import Fediux.Util.StrSplit
import Fediux.Util.ThreadSafeQueue
import Fediux.Vfl.CkksTraining
import Fediux.Vfl.DataLoader
import Fediux.Vfl.HostGuests
import Fediux.Vfl.Kmeans
import Fediux.Vfl.LinearRegression
import Fediux.Vfl.LogisticRegression
import Fediux.Vfl.SampleAlignment
import Fediux.Vfl.Tenseal
import Fediux.Xgboost.BestSplits
import Fediux.Xgboost.EncryptedSums
import Fediux.Xgboost.Fit
import Fediux.Xgboost.HistSums
import Fediux.Xgboost.LeafWeight
import Fediux.Xgboost.MergedSums
import Fediux.Xgboost.MyFit
import Fediux.Xgboost.PaillierAdd
import Fediux.Xgboost.RealChildren
import Fediux.Xgboost.TreeConstruct
import Fediux.Xgboost.TreeLockstep
import Fediux.Xgboost.TreeRuns
