import FastGoZero.Router.PatRouter
import FastGoZero.Breaker.GoogleBreaker
import FastGoZero.Collection.RollingPeriods
import FastGoZero.Collection.CacheRecency
import FastGoZero.Collection.CacheTimers
import FastGoZero.Codec.AesEcb
import FastGoZero.Limit.TokenLimit
import FastGoZero.Executors.Waiting
import FastGoZero.Mr.Contract
import FastGoZero.Mapping.History
import FastGoZero.Collection.SafeMapRuns
import FastGoZero.Collection.TimingExecutions
import FastGoZero.Discov.Monitor
import FastGoZero.Discov.Reload
import FastGoZero.Discov.MatchMode
import FastGoZero.HttpRouter.OrderIndependence
import FastGoZero.Stringx.Replacer
import FastGoZero.Stores.RedisLock
import FastGoZero.Stores.SharedResults
import FastGoZero.Logx.RotateLogger
import FastGoZero.Fx.WalkContract
import FastGoZero.Sqlx.BulkRuns
import FastGoZero.Api.Scanning
import FastGoZero.Api.SpecOrder
import FastGoZero.Sqlx.Placeholders
import FastGoZero.Sqlx.Escaping
import FastGoZero.Sqlx.StatementParts
import FastGoZero.Hash.Placement
import FastGoZero.Conf.MapKeys
import FastGoZero.Syncx.AtomicLimit
import FastGoZero.Syncx.LockedCalls
import FastGoZero.Queue.BalancedPusher
import FastGoZero.Rest.TokenParser
import FastGoZero.Kube.EventHandler
import FastGoZero.Stat.TopK
import FastGoZero.Iox.ReadBytes
import FastGoZero.Collection.Buffers
